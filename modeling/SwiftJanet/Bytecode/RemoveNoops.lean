import SwiftJanet.Bytecode.Verify

/-!
# Removing instructions that do nothing

`removeNoops`: the pass behind the move optimiser. It packs the bytecode and its source map, and moves the targets of jumps
and the lifetimes of symbols.

- `newPc`: where an instruction goes, which is what `pc_map` lists (`pcMapFrom_eq`);
- a jump keeps its test and its direction, and its new offset fits where the old one did (`retarget_spec`);
- the packed function does what the function did, one step for each instruction that is left (`simulates_removeNoops`).
-/

namespace SwiftJanet.Bytecode

open Lib

/-! ## The pass -/

/-- The opcode is `JOP_NOOP`. -/
def isNoop (w : Word) : Bool := w &&& 0x7F#32 == 0#32

/-- `pc_map`, from a part of the bytecode on. -/
def pcMapFrom (new : Nat) : List Word → List Nat
  | [] => [new]
  | instr :: rest => new :: pcMapFrom (if isNoop instr then new else new + 1) rest

/-- The new word of a jump that goes from `i` to `j`, with its offset above the lowest `shift` bits. An assertion that fails
aborts. -/
def retarget (pcMap : List Nat) (length i j : Nat) (instr : Word) (offset : Int) (shift : Nat) : Option Word :=
  let old := i + offset
  if 0 ≤ old ∧ old < length then do
    let new ← pcMap[old.toNat]?
    some (instr + BitVec.ofInt 32 (new - old + (i - j)) <<< shift)
  else none

/-- The new word of an instruction that goes from `i` to `j`. -/
def rewrite (pcMap : List Nat) (length i j : Nat) (instr : Word) : Option Word :=
  match opcode instr with
  | some .jump => retarget pcMap length i j instr (signedD instr) 8
  | some .jumpIf | some .jumpIfNil | some .jumpIfNot | some .jumpIfNotNil =>
    retarget pcMap length i j instr (signedE instr) 16
  | _ => some instr

/-- The loop that packs the bytecode. -/
def rewriteFrom (pcMap : List Nat) (length i j : Nat) : List Word → Option (List Word)
  | [] => some []
  | instr :: rest =>
    if isNoop instr then rewriteFrom pcMap length (i + 1) j rest
    else do
      let word ← rewrite pcMap length i j instr
      some (word :: (← rewriteFrom pcMap length (i + 1) (j + 1) rest))

/-- The entries of the source map that are kept. -/
def packMap : List Word → List SourceMapping → List SourceMapping
  | instr :: code, entry :: map => if isNoop instr then packMap code map else entry :: packMap code map
  | _, _ => []

/-- Move the lifetime of a symbol, unless it is an upvalue's. To look behind `pc_map` leaves its block. -/
def moveSymbol (pcMap : List Nat) (sm : SymbolMap) : Option SymbolMap :=
  if sm.birthPc = BitVec.allOnes 32 then some sm
  else do
    let birth ← pcMap[sm.birthPc.toNat]?
    let death ← pcMap[sm.deathPc.toNat]?
    some { sm with birthPc := BitVec.ofNat 32 birth, deathPc := BitVec.ofNat 32 death }

/-- `janet_bytecode_remove_noops`. -/
def removeNoops (d : FuncDef) : Option FuncDef := do
  let pcMap := pcMapFrom 0 d.bytecode
  let bytecode ← rewriteFrom pcMap d.bytecode.length 0 0 d.bytecode
  let symbolmap ← d.symbolmap.mapM (moveSymbol pcMap)
  some { d with bytecode, symbolmap, sourcemap := d.sourcemap.map (packMap d.bytecode) }

/-! ## Where instructions go -/

/-- The number of instructions before the `i`th that are left. -/
def newPc : List Word → Nat → Nat
  | instr :: code, i + 1 => (if isNoop instr then 0 else 1) + newPc code i
  | _, _ => 0

section Places

variable {code : List Word} {i j k n : Nat} {w : Word}

@[simp] theorem newPc_zero : newPc code 0 = 0 := by cases code <;> rfl

theorem newPc_succ : ∀ {code : List Word} {i : Nat}, code[i]? = some w →
    newPc code (i + 1) = newPc code i + (if isNoop w then 0 else 1)
  | [], _, h => by cases h
  | instr :: code, 0, h => by
    cases h
    rw [newPc, newPc_zero, newPc_zero, Nat.add_zero, Nat.zero_add]
  | instr :: code, i + 1, h => by
    rw [newPc, newPc_succ (i := i) (by simpa using h), newPc, Nat.add_assoc]

theorem newPc_succ_le : ∀ {code : List Word} {i : Nat}, newPc code i ≤ newPc code (i + 1) ∧
    newPc code (i + 1) ≤ newPc code i + 1
  | [], i => by cases i <;> simp [newPc]
  | instr :: code, 0 => by
    rw [newPc, newPc_zero, newPc_zero]
    split <;> omega
  | instr :: code, i + 1 => by
    have ih := @newPc_succ_le code i
    rw [newPc, newPc]
    omega

theorem newPc_mono (h : i ≤ j) : newPc code i ≤ newPc code j ∧ newPc code j ≤ newPc code i + (j - i) := by
  induction j, h using Nat.le_induction with
  | base => omega
  | succ j h ih =>
    have := @newPc_succ_le code j
    omega

/-- **`pc_map` lists where the instructions go.** -/
theorem pcMapFrom_eq : ∀ {code : List Word} {new i : Nat}, i ≤ code.length →
    (pcMapFrom new code)[i]? = some (new + newPc code i)
  | [], new, i, h => by
    obtain rfl : i = 0 := by simpa using h
    rfl
  | instr :: code, new, 0, _ => by rw [pcMapFrom, newPc_zero]; rfl
  | instr :: code, new, i + 1, h => by
    rw [pcMapFrom, List.getElem?_cons_succ, pcMapFrom_eq (by simpa using h), newPc]
    congr 1
    split <;> omega

/-- The words of the packed bytecode. -/
theorem rewriteFrom_eq {pcMap : List Nat} {length : Nat} : ∀ {code code' : List Word} {i j : Nat},
    rewriteFrom pcMap length i j code = some code' → ∀ {k : Nat} {w : Word}, code[k]? = some w → isNoop w = false →
      ∃ w', code'[newPc code k]? = some w' ∧ rewrite pcMap length (i + k) (j + newPc code k) w = some w'
  | [], _, _, _, _, _, _, hw, _ => by cases hw
  | instr :: code, code', i, j, h, k, w, hw, hnoop => by
    rw [rewriteFrom] at h
    by_cases hinstr : isNoop instr = true
    · rw [if_pos hinstr] at h
      cases k with
      | zero =>
        cases hw
        rw [hinstr] at hnoop
        cases hnoop
      | succ k =>
        obtain ⟨w', hw', hrewrite⟩ := rewriteFrom_eq h (k := k) (by simpa using hw) hnoop
        refine ⟨w', ?_, ?_⟩
        · rw [newPc, if_pos hinstr, Nat.zero_add]
          exact hw'
        · rw [newPc, if_pos hinstr, Nat.zero_add, show i + (k + 1) = i + 1 + k by omega]
          exact hrewrite
    · rw [if_neg hinstr] at h
      obtain ⟨word, hword, h⟩ := Option.bind_eq_some_iff.mp h
      obtain ⟨rest, hrest, h⟩ := Option.bind_eq_some_iff.mp h
      cases h
      cases k with
      | zero =>
        cases hw
        exact ⟨word, by rw [newPc_zero]; rfl, by rw [newPc_zero]; exact hword⟩
      | succ k =>
        obtain ⟨w', hw', hrewrite⟩ := rewriteFrom_eq hrest (k := k) (by simpa using hw) hnoop
        refine ⟨w', ?_, ?_⟩
        · rw [newPc, if_neg hinstr, Nat.add_comm, List.getElem?_cons_succ]
          exact hw'
        · rw [newPc, if_neg hinstr, show i + (k + 1) = i + 1 + k by omega,
            show j + (1 + newPc code k) = j + 1 + newPc code k by omega]
          exact hrewrite

theorem length_rewriteFrom {pcMap : List Nat} {length : Nat} : ∀ {code code' : List Word} {i j : Nat},
    rewriteFrom pcMap length i j code = some code' → code'.length = newPc code code.length
  | [], _, _, _, h => by cases h; rfl
  | instr :: code, code', i, j, h => by
    rw [rewriteFrom] at h
    rw [List.length_cons, newPc]
    by_cases hinstr : isNoop instr = true
    · rw [if_pos hinstr] at h ⊢
      rw [length_rewriteFrom h, Nat.zero_add]
    · rw [if_neg hinstr] at h ⊢
      obtain ⟨word, hword, h⟩ := Option.bind_eq_some_iff.mp h
      obtain ⟨rest, hrest, h⟩ := Option.bind_eq_some_iff.mp h
      cases h
      rw [List.length_cons, length_rewriteFrom hrest, Nat.add_comm]

/-- Every word of the packed bytecode comes from one. -/
theorem exists_newPc : ∀ {code : List Word} {j : Nat}, j < newPc code code.length →
    ∃ k w, code[k]? = some w ∧ isNoop w = false ∧ newPc code k = j
  | [], j, h => by simp [newPc] at h
  | instr :: code, j, h => by
    rw [List.length_cons, newPc] at h
    by_cases hinstr : isNoop instr = true
    · rw [if_pos hinstr] at h
      obtain ⟨k, w, hw, hnoop, hk⟩ := @exists_newPc code j (by omega)
      exact ⟨k + 1, w, by simpa using hw, hnoop, by rw [newPc, if_pos hinstr, hk, Nat.zero_add]⟩
    · rw [if_neg hinstr] at h
      cases j with
      | zero => exact ⟨0, instr, rfl, by simpa using hinstr, newPc_zero⟩
      | succ j =>
        obtain ⟨k, w, hw, hnoop, hk⟩ := @exists_newPc code j (by omega)
        exact ⟨k + 1, w, by simpa using hw, hnoop, by rw [newPc, if_neg hinstr, hk, Nat.add_comm]⟩

/-- The source map moves with the instructions. -/
theorem packMap_eq : ∀ {code : List Word} {map : List SourceMapping} {k : Nat}, code[k]? = some w → isNoop w = false →
    (packMap code map)[newPc code k]? = map[k]?
  | [], _, _, h, _ => by cases h
  | instr :: code, [], k, _, _ => by rw [packMap] <;> simp
  | instr :: code, entry :: map, 0, h, hnoop => by
    cases h
    rw [packMap, hnoop, newPc_zero]
    rfl
  | instr :: code, entry :: map, k + 1, h, hnoop => by
    have ih := @packMap_eq code map k (by simpa using h) hnoop
    rw [packMap, newPc]
    by_cases hinstr : isNoop instr = true
    · rw [if_pos hinstr, if_pos hinstr, Nat.zero_add, ih, List.getElem?_cons_succ]
    · rw [if_neg hinstr, if_neg hinstr, Nat.add_comm, List.getElem?_cons_succ, ih, List.getElem?_cons_succ]

end Places

/-! ## Words of jumps -/

section Words

theorem ofInt_shiftLeft (δ : Int) (s : Nat) : BitVec.ofInt 32 δ <<< s = BitVec.ofInt 32 (δ * 2 ^ s) := by
  have hpow : BitVec.twoPow 32 s = BitVec.ofInt 32 (2 ^ s) := by
    rw [show (2 : Int) ^ s = ((2 ^ s : Nat) : Int) by simp, BitVec.ofInt_natCast]
    apply BitVec.eq_of_toNat_eq
    rw [BitVec.toNat_twoPow, BitVec.toNat_ofNat]
  rw [BitVec.shiftLeft_eq_mul_twoPow, BitVec.ofInt_mul, hpow]

variable {w w' : Word} {s : Nat} {δ : Int}

/-- What is added to the offset of a jump is added to its value, if that fits. -/
theorem toInt_add_shifted (hs : s = 8 ∨ s = 16) (hlow : -2 ^ (31 - s) ≤ (w.sshiftRight s).toInt + δ)
    (hhigh : (w.sshiftRight s).toInt + δ < 2 ^ (31 - s)) :
    ((w + BitVec.ofInt 32 δ <<< s).sshiftRight s).toInt = (w.sshiftRight s).toInt + δ := by
  have hsum : w + BitVec.ofInt 32 δ <<< s = BitVec.ofInt 32 (w.toInt + δ * 2 ^ s) := by
    rw [BitVec.ofInt_add, BitVec.ofInt_toInt, ofInt_shiftLeft]
  rw [BitVec.toInt_sshiftRight, Int.shiftRight_eq_div_pow] at hlow hhigh ⊢
  rw [hsum, BitVec.toInt_ofInt_eq_self (by omega), BitVec.toInt_sshiftRight, Int.shiftRight_eq_div_pow]
  · rcases hs with rfl | rfl <;> omega
  · rcases hs with rfl | rfl <;> omega
  · rcases hs with rfl | rfl <;> omega

/-- The bits below the offset stay. -/
theorem toNat_add_shifted (hs : s = 8 ∨ s = 16) :
    (w + BitVec.ofInt 32 δ <<< s).toNat % 2 ^ s = w.toNat % 2 ^ s := by
  rw [BitVec.toNat_add, BitVec.toNat_shiftLeft, Nat.shiftLeft_eq]
  generalize (BitVec.ofInt 32 δ).toNat = y
  rcases hs with rfl | rfl <;> omega

/-- An offset fits its bits. -/
theorem toInt_sshiftRight_bounds (hs : s = 8 ∨ s = 16) :
    -2 ^ (31 - s) ≤ (w.sshiftRight s).toInt ∧ (w.sshiftRight s).toInt < 2 ^ (31 - s) := by
  have hlow := BitVec.le_toInt w
  have hhigh := @BitVec.toInt_lt 32 w
  rw [BitVec.toInt_sshiftRight, Int.shiftRight_eq_div_pow]
  rcases hs with rfl | rfl <;> omega

theorem opcode_congr (h : w'.toNat % 2 ^ 8 = w.toNat % 2 ^ 8) : opcode w' = opcode w ∧ dispatched w' = dispatched w := by
  rw [opcode, opcode, dispatched, dispatched, toNat_and_FF, toNat_and_FF, toNat_and_7F, toNat_and_7F, h]
  refine ⟨?_, rfl⟩
  congr 1
  omega

theorem slotA_congr (h : w'.toNat % 2 ^ 16 = w.toNat % 2 ^ 16) : slotA w' = slotA w := by
  rw [slotA_eq, slotA_eq]
  omega

end Words

/-! ## Rewritten instructions -/

section Rewritten

variable {code : List Word} {d : FuncDef} {i n s : Nat} {w w' : Word} {op : Opcode} {offset : Int}

/-- Where an action of the `i`th instruction jumps to in the packed bytecode. -/
def Action.packed (code : List Word) (i : Nat) : Action → Action
  | .jump test offset => .jump test (newPc code (i + offset).toNat - newPc code i)
  | action => action

/-- A jump keeps its direction, and does not get longer. -/
theorem newPc_offset {t : Nat} (hw : code[i]? = some w) (hnoop : isNoop w = false) :
    (t ≤ i → newPc code t ≤ newPc code i ∧ newPc code i ≤ newPc code t + (i - t)) ∧
      (i < t → newPc code i < newPc code t ∧ newPc code t ≤ newPc code i + (t - i)) := by
  refine ⟨fun h => newPc_mono h, fun h => ⟨?_, (newPc_mono (Nat.le_of_lt h)).2⟩⟩
  have hsucc := newPc_succ hw
  rw [hnoop, if_neg Bool.false_ne_true] at hsucc
  have hmono := (@newPc_mono code (i + 1) t h).1
  omega

/-- **The new offset of a jump leads to where its target goes.** -/
theorem retarget_spec (hs : s = 8 ∨ s = 16) (hw : code[i]? = some w) (hnoop : isNoop w = false)
    (ht : 0 ≤ i + (w.sshiftRight s).toInt ∧ i + (w.sshiftRight s).toInt < code.length) :
    ∃ w', retarget (pcMapFrom 0 code) code.length i (newPc code i) w (w.sshiftRight s).toInt s = some w' ∧
      (w'.sshiftRight s).toInt = newPc code (i + (w.sshiftRight s).toInt).toNat - newPc code i ∧
      w'.toNat % 2 ^ s = w.toNat % 2 ^ s := by
  have hbounds := @toInt_sshiftRight_bounds w s hs
  obtain ⟨hback, hahead⟩ := @newPc_offset code i w (i + (w.sshiftRight s).toInt).toNat hw hnoop
  have hmap := @pcMapFrom_eq code 0 (i + (w.sshiftRight s).toInt).toNat (by omega)
  rw [Nat.zero_add] at hmap
  refine ⟨_, by rw [retarget, if_pos ht, hmap]; rfl, ?_, toNat_add_shifted hs⟩
  rw [toInt_add_shifted hs]
  · omega
  · omega
  · omega

theorem newPc_rewrite (hv : verifyInstruction d i code.length w = 0) (hop : opcode w = some op)
    (hw : code[i]? = some w) (hnoop : isNoop w = false) :
    ∃ w', rewrite (pcMapFrom 0 code) code.length i (newPc code i) w = some w' ∧ opcode w' = some op ∧
      dispatched w' = dispatched w ∧ decode w' op = (decode w op).packed code i ∧
      failedAssert d w' op = failedAssert d w op := by
  obtain ⟨_, _, hjump⟩ := verified_operands hv hop
  have hplain : (decode w op).offset = none → (decode w op).packed code i = decode w op := fun h => by
    cases hd : decode w op <;> rw [hd] at h <;> first | rfl | cases h
  unfold rewrite
  rw [hop]
  cases op
  case jump =>
    obtain ⟨w', hw', hoffset, hlow⟩ := @retarget_spec code i 8 w (Or.inl rfl) hw hnoop (hjump _ rfl)
    obtain ⟨hop', hdis⟩ := opcode_congr hlow
    refine ⟨w', hw', hop'.trans hop, hdis, ?_, rfl⟩
    simp only [decode, Action.packed, signedD, hoffset]
  case jumpIf | jumpIfNot | jumpIfNil | jumpIfNotNil =>
    obtain ⟨w', hw', hoffset, hlow⟩ := @retarget_spec code i 16 w (Or.inr rfl) hw hnoop (hjump _ rfl)
    obtain ⟨hop', hdis⟩ := @opcode_congr w w' (by omega)
    refine ⟨w', hw', hop'.trans hop, hdis, ?_, rfl⟩
    simp only [decode, Action.packed, signedE, hoffset, slotA_congr hlow]
  all_goals exact ⟨w, rfl, hop, rfl, (hplain rfl).symm, rfl⟩

end Rewritten

/-! ## The packed function -/

section Packed

variable {W : Type} {d d' : FuncDef} {rest : Rest W} {self : Janet} {f : Frame W} {op : Opcode} {w : Word}

/-- The frame in the packed function. -/
def Frame.packed (code : List Word) (f : Frame W) : Frame W := { f with pc := newPc code f.pc }

/-- The turn in the packed function. -/
def packedTurn (code : List Word) : Turn (Frame W) (Exit W) → Turn (Frame W) (Exit W)
  | .goes f => .goes (f.packed code)
  | .ends o => .ends o

/-- What the pass leaves of a function, seen from an instruction that is left. -/
structure Packs (d d' : FuncDef) (f : Frame W) : Prop where
  captured : d'.captured = d.captured
  constants : d'.constants = d.constants
  place : d'.place (newPc d.bytecode f.pc) = d.place f.pc
  next : newPc d.bytecode (f.pc + 1) = newPc d.bytecode f.pc + 1

theorem seen_congr (h : d'.captured = d.captured) (slots : List Janet) : seen d' slots = seen d slots := by
  rw [seen, seen, h]

theorem packed_write (h : Packs d d' f) (target : Nat) (x : Janet) :
    (f.packed d.bytecode).write target x = packedTurn d.bytecode (f.write target x) := by
  unfold Frame.write
  by_cases ht : target < f.slots.length
  · rw [if_pos ht, if_pos (by exact ht)]
    simp only [packedTurn, Frame.packed, h.next]
  · rw [if_neg ht, if_neg (by exact ht)]
    rfl

theorem packed_next (h : Packs d d' f) : (.goes { f.packed d.bytecode with pc := newPc d.bytecode f.pc + 1 } :
    Turn (Frame W) (Exit W)) = packedTurn d.bytecode (.goes { f with pc := f.pc + 1 }) := by
  simp only [packedTurn, Frame.packed, h.next]

theorem packed_jump {offset : Int} (ht : 0 ≤ f.pc + offset) :
    (f.packed d.bytecode).jump (newPc d.bytecode (f.pc + offset).toNat - newPc d.bytecode f.pc) =
      packedTurn d.bytecode (f.jump offset) := by
  rw [Frame.jump, Frame.jump, if_pos ht]
  have hpc : (((f.packed d.bytecode).pc : Int) + (newPc d.bytecode (f.pc + offset).toNat - newPc d.bytecode f.pc)) =
      newPc d.bytecode (f.pc + offset).toNat := by
    show (newPc d.bytecode f.pc : Int) + _ = _
    omega
  rw [hpc, if_pos (by omega), Int.toNat_natCast]
  rfl

theorem packed_left (h : Packs d d' f) {signal : Nat} {x : Janet} {xs : List Janet} {w : W} :
    (.ends (.left signal x (d'.place (f.packed d.bytecode).pc) xs w) : Turn (Frame W) (Exit W)) =
      packedTurn d.bytecode (.ends (.left signal x (d.place f.pc) xs w)) :=
  congrArg (fun place => Turn.ends (Exit.left signal x place xs w)) h.place

theorem packed_reading {slot : Nat} {go go' : Janet → Turn (Frame W) (Exit W)}
    (h : ∀ x, go' x = packedTurn d.bytecode (go x)) :
    (f.packed d.bytecode).reading slot go' = packedTurn d.bytecode (f.reading slot go) := by
  obtain rfl : go' = fun x => packedTurn d.bytecode (go x) := funext h
  unfold Frame.reading
  rw [Frame.packed]
  cases f.slots[slot]? <;> rfl

theorem packed_pausing (h : Packs d d' f) (go : Turn (Frame W) (Exit W)) :
    (f.packed d.bytecode).pausing d' rest (packedTurn d.bytecode go) =
      packedTurn d.bytecode (f.pausing d rest go) := by
  have hpause : rest.pause (seen d' (f.packed d.bytecode).slots) (f.packed d.bytecode).world =
      rest.pause (seen d f.slots) f.world := by rw [seen_congr h.captured]; rfl
  rw [Frame.pausing, Frame.pausing, hpause, h.captured]
  cases rest.pause (seen d f.slots) f.world with
  | none => rfl
  | resumed xs w => rfl
  | leaves signal x xs w => exact packed_left h

theorem packed_asking (h : Packs d d' f) {immediates : List Int} {args : List Janet}
    {go go' : Janet → List Janet → W → Turn (Frame W) (Exit W)}
    (hgo : ∀ x xs w, go' x xs w = packedTurn d.bytecode (go x xs w)) :
    (f.packed d.bytecode).asking d' rest op immediates args go' =
      packedTurn d.bytecode (f.asking d rest op immediates args go) := by
  have hperform : rest.perform op immediates args (seen d' (f.packed d.bytecode).slots) (f.packed d.bytecode).world =
      rest.perform op immediates args (seen d f.slots) f.world := by rw [seen_congr h.captured]; rfl
  rw [Frame.asking, Frame.asking, hperform]
  cases rest.perform op immediates args (seen d f.slots) f.world with
  | leaves signal x xs w => exact packed_left h
  | value x xs w => exact hgo x xs w

theorem packed_operate (h : Packs d d' f) {immediates : List Int} {reads : List Nat} {target : Option Nat} :
    (f.packed d.bytecode).operate d' rest op immediates reads target =
      packedTurn d.bytecode (f.operate d rest op immediates reads target) := by
  have hread : readAll (f.packed d.bytecode).slots reads = readAll f.slots reads := rfl
  rw [Frame.operate, Frame.operate, Frame.readingAll, Frame.readingAll, hread]
  cases readAll f.slots reads with
  | none => rfl
  | some args =>
    refine packed_asking h fun x xs w => ?_
    have h' : Packs d d' { f with slots := writeBack f.slots d.captured xs, world := w } :=
      ⟨h.captured, h.constants, h.place, h.next⟩
    cases target with
    | none =>
      rw [Frame.settle, Frame.settle, h.captured]
      exact packed_next h'
    | some target =>
      rw [Frame.settle, Frame.settle, h.captured]
      exact packed_write h' target x

/-- A jump that is taken keeps its direction, which decides whether the fiber can be suspended. -/
theorem packed_take (h : Packs d d' f) {offset : Int} (hw : d.bytecode[f.pc]? = some w) (hnoop : isNoop w = false)
    (ht : 0 ≤ f.pc + offset) : (f.packed d.bytecode).take d' rest
      (newPc d.bytecode (f.pc + offset).toNat - newPc d.bytecode f.pc) =
        packedTurn d.bytecode (f.take d rest offset) := by
  have hdirection : (newPc d.bytecode (f.pc + offset).toNat : Int) - newPc d.bytecode f.pc ≤ 0 ↔ offset ≤ 0 := by
    obtain ⟨hback, hahead⟩ := @newPc_offset d.bytecode f.pc w (f.pc + offset).toNat hw hnoop
    constructor <;> intro <;> omega
  rw [Frame.take, Frame.take, packed_jump ht]
  by_cases hoffset : offset ≤ 0
  · rw [if_pos hoffset, if_pos (hdirection.mpr hoffset), packed_pausing h]
  · rw [if_neg hoffset, if_neg (mt hdirection.mp hoffset)]

/-- An action does in the packed function what it does in the function. -/
theorem packed_perform (h : Packs d d' f) {action : Action} (hw : d.bytecode[f.pc]? = some w) (hnoop : isNoop w = false)
    (hjump : ∀ offset ∈ action.offset, 0 ≤ f.pc + offset) :
    (f.packed d.bytecode).perform d' rest self op (action.packed d.bytecode f.pc) =
      packedTurn d.bytecode (f.perform d rest self op action) := by
  have hseen : seen d' (f.packed d.bytecode).slots = seen d f.slots := seen_congr h.captured f.slots
  cases action with
  | skip => exact packed_next h
  | raise slot =>
    refine packed_reading fun x => ?_
    rw [hseen]
    exact packed_left h
  | giveBack slot =>
    cases slot with
    | none =>
      rw [Action.packed, Frame.perform, Frame.perform, hseen]
      · rfl
      · simp
    | some slot =>
      refine packed_reading fun x => ?_
      rw [hseen]
      rfl
  | load target x => exact packed_write h target x
  | loadConstant target index =>
    rw [Action.packed, Frame.perform, Frame.perform, h.constants]
    · cases d.constants[index]? with
      | none => rfl
      | some x => exact packed_write h target x
    · simp
  | loadSelf target => exact packed_write h target self
  | move target source => exact packed_reading fun x => packed_write h target x
  | jump test offset =>
    have hgo := @packed_take W d d' rest f w h offset hw hnoop (hjump offset rfl)
    cases test with
    | none => exact hgo
    | some test =>
      refine packed_reading fun x => ?_
      split
      · exact hgo
      · exact packed_next h
  | tailcall callee =>
    have hgo : (f.packed d.bytecode).reading callee (fun x => (f.packed d.bytecode).asking d' rest op [] [x]
        fun x xs w => .ends (.returned x xs w)) = packedTurn d.bytecode (f.reading callee fun x =>
          f.asking d rest op [] [x] fun x xs w => .ends (.returned x xs w)) :=
      packed_reading fun x => packed_asking h fun _ _ _ => rfl
    exact (congrArg ((f.packed d.bytecode).pausing d' rest) hgo).trans (packed_pausing h _)
  | operate immediates reads target =>
    have hgo := @packed_operate W d d' rest f op h immediates reads target
    rw [Action.packed, Frame.perform, Frame.perform, hgo, packed_pausing h]
    · split <;> rfl
    · simp

end Packed

/-! ## The pass preserves meaning -/

section Preserves

variable {W : Type} {d d' : FuncDef} {rest : Rest W} {self : Janet} {w w' : Word} {op : Opcode}

/-- What the pass makes of a function. -/
structure RemovesNoops (d d' : FuncDef) : Prop where
  code : rewriteFrom (pcMapFrom 0 d.bytecode) d.bytecode.length 0 0 d.bytecode = some d'.bytecode
  symbols : d.symbolmap.mapM (moveSymbol (pcMapFrom 0 d.bytecode)) = some d'.symbolmap
  sourcemap : d'.sourcemap = d.sourcemap.map (packMap d.bytecode)
  bitset : d'.closureBitset = d.closureBitset
  constants : d'.constants = d.constants
  slotcount : d'.slotcount = d.slotcount
  maxslot : d'.maxslot = d.maxslot
  environments : d'.environmentsLength = d.environmentsLength
  defs : d'.defsLength = d.defsLength

theorem removeNoops_spec (h : removeNoops d = some d') : RemovesNoops d d' := by
  obtain ⟨code, hcode, h⟩ := Option.bind_eq_some_iff.mp h
  obtain ⟨symbols, hsymbols, h⟩ := Option.bind_eq_some_iff.mp h
  cases h
  exact ⟨hcode, hsymbols, rfl, rfl, rfl, rfl, rfl, rfl, rfl⟩

theorem isNoop_iff : isNoop w = true ↔ opcode w = some .noop := by
  rw [isNoop, beq_iff_eq, opcode]
  constructor
  · intro h
    rw [h]
    rfl
  · intro h
    -- no other number is that of the opcode
    have hall : ∀ n < 77, Opcode.ofByte n = some .noop → n = 0 := by decide
    exact BitVec.eq_of_toNat_eq (hall _ (ofByte_lt h) h)

/-- An instruction that is left, and its new word. -/
theorem RemovesNoops.instruction (h : RemovesNoops d d') (hv : Verified d) {i : Nat} (hw : d.bytecode[i]? = some w)
    (hop : opcode w = some op) (hnoop : isNoop w = false) :
    ∃ w', d'.bytecode[newPc d.bytecode i]? = some w' ∧ opcode w' = some op ∧ dispatched w' = dispatched w ∧
      decode w' op = (decode w op).packed d.bytecode i ∧ failedAssert d' w' op = none := by
  obtain ⟨w', hw', hrewrite⟩ := rewriteFrom_eq h.code hw hnoop
  rw [Nat.zero_add, Nat.zero_add] at hrewrite
  have hcheck := hv.instructions i w hw
  obtain ⟨w'', hrewrite', hop', hdispatched, hdecode, hassert⟩ := newPc_rewrite hcheck hop hw hnoop
  obtain rfl := Option.some.inj (hrewrite.symm.trans hrewrite')
  refine ⟨w', hw', hop', hdispatched, hdecode, ?_⟩
  have hcongr : failedAssert d' w' op = failedAssert d w' op := by
    unfold failedAssert
    rw [h.constants, h.environments, h.defs]
  rw [hcongr, hassert, (verified_operands hcheck hop).2.1]

theorem RemovesNoops.packs (h : RemovesNoops d d') {f : Frame W} (hw : d.bytecode[f.pc]? = some w)
    (hnoop : isNoop w = false) : Packs d d' f := by
  have hnext := newPc_succ hw
  rw [hnoop, if_neg Bool.false_ne_true] at hnext
  refine ⟨?_, h.constants, ?_, hnext⟩
  · rw [FuncDef.captured, FuncDef.captured, h.bitset, h.slotcount]
  · rw [FuncDef.place, FuncDef.place, h.sourcemap]
    cases d.sourcemap with
    | none => rfl
    | some map => exact packMap_eq hw hnoop

/-- A turn at an instruction that does nothing, and at any other. -/
theorem RemovesNoops.turn (h : RemovesNoops d d') (hv : Verified d) (hb : d.Unbroken) {f : Frame W}
    (hf : f.Inside d) : (f.step d rest self = .goes { f with pc := f.pc + 1 } ∧
      newPc d.bytecode (f.pc + 1) = newPc d.bytecode f.pc) ∨
        (f.packed d.bytecode).step d' rest self = packedTurn d.bytecode (f.step d rest self) := by
  obtain ⟨w, hw⟩ : ∃ w, d.bytecode[f.pc]? = some w := ⟨_, List.getElem?_eq_getElem hf.pc⟩
  have hdispatched := hb w (List.mem_of_getElem? hw)
  have hcheck := hv.instructions f.pc w hw
  obtain ⟨op, hop⟩ := exists_opcode hcheck
  obtain ⟨_, hassert, hjump⟩ := verified_operands hcheck hop
  have hstep := @Frame.step_eq _ _ rest self _ _ _ hw (hdispatched.trans hop) hassert
  by_cases hnoop : isNoop w = true
  · left
    obtain rfl := Option.some.inj (hop.symm.trans (isNoop_iff.mp hnoop))
    have hnext := newPc_succ hw
    rw [if_pos hnoop] at hnext
    exact ⟨hstep, hnext⟩
  · right
    rw [Bool.not_eq_true] at hnoop
    obtain ⟨w', hw', _, hdispatched', hdecode, hassert'⟩ := h.instruction hv hw hop hnoop
    rw [hstep, ← packed_perform (h.packs hw hnoop) hw hnoop fun offset hoffset => (hjump offset hoffset).1, ← hdecode]
    exact Frame.step_eq hw' (hdispatched'.trans (hdispatched.trans hop)) hassert'

/-- **The packed function follows the function**: it skips what does nothing, and otherwise makes the same turn. -/
theorem simulates_removeNoops (h : RemovesNoops d d') (hv : Verified d) (hb : d.Unbroken) :
    Turn.Simulates (Frame.step d rest self) (Frame.step d' rest self)
      (fun f g => f.Inside d ∧ g = f.packed d.bytecode) Eq (fun f => d.bytecode.length - f.pc) fun _ => False where
  goes {f g u} hr hstep := by
    obtain ⟨hf, rfl⟩ := hr
    have hu := (stays_step hv hf).goes u hstep
    rcases @RemovesNoops.turn _ _ _ rest self h hv hb _ hf with ⟨hnoop, hnext⟩ | hturn
    · right
      cases Turn.goes.inj (hstep.symm.trans hnoop)
      refine ⟨⟨hu, ?_⟩, ?_⟩
      · simp only [Frame.packed, hnext]
      · have := hf.pc
        show d.bytecode.length - (f.pc + 1) < d.bytecode.length - f.pc
        omega
    · left
      rw [hstep] at hturn
      exact ⟨_, hturn, hu, rfl⟩
  ends {f g o} hr hstep := by
    obtain ⟨hf, rfl⟩ := hr
    left
    rcases @RemovesNoops.turn _ _ _ rest self h hv hb _ hf with ⟨hnoop, _⟩ | hturn
    · cases hstep.symm.trans hnoop
    · rw [hstep] at hturn
      exact ⟨o, hturn, rfl⟩

/-! ## The packed function is verified -/

/-- The lifetimes of the symbols end in the bytecode, as the compiler asserts. -/
def FuncDef.SymbolsEnd (d : FuncDef) : Prop :=
  ∀ jsm ∈ d.symbolmap, jsm.birthPc ≠ BitVec.allOnes 32 → jsm.deathPc ≠ BitVec.allOnes 32

/-- Every instruction goes before the end. -/
theorem newPc_lt (hv : Verified d) {i : Nat} (hi : i < d.bytecode.length) :
    newPc d.bytecode i < newPc d.bytecode d.bytecode.length := by
  obtain ⟨w, hw⟩ : ∃ w, d.bytecode[d.bytecode.length - 1]? = some w := ⟨_, List.getElem?_eq_getElem (by omega)⟩
  have hlast : d.bytecode.getLast? = some w := by rw [List.getLast?_eq_getElem?, hw]
  have hnoop : isNoop w = false := by
    refine Bool.eq_false_iff.mpr fun hnoop => ?_
    have h := hv.last
    rw [isNoop, beq_iff_eq] at hnoop
    unfold verifyLast at h
    rw [hlast] at h
    simp only [Option.map_some, Option.join_some] at h
    -- the last opcode is compared with the bit of a breakpoint
    have hbyte : (w &&& 0xFF#32).toNat = 0 ∨ (w &&& 0xFF#32).toNat = 128 := by
      have h7F := toNat_and_7F w
      rw [hnoop, BitVec.toNat_zero] at h7F
      rw [toNat_and_FF]
      omega
    rw [dispatched] at h
    rcases hbyte with hbyte | hbyte <;> rw [hbyte] at h <;> exact absurd h (by decide)
  have hsucc := newPc_succ hw
  rw [hnoop, if_neg Bool.false_ne_true, Nat.sub_add_cancel (by omega)] at hsucc
  have hmono := (@newPc_mono d.bytecode i (d.bytecode.length - 1) (by omega)).1
  omega

/-- The pass does not abort on verified bytecode. -/
theorem rewriteFrom_isSome (hv : Verified d) : ∀ {code : List Word} {i : Nat}, d.bytecode.drop i = code →
    ∃ code', rewriteFrom (pcMapFrom 0 d.bytecode) d.bytecode.length i (newPc d.bytecode i) code = some code'
  | [], _, _ => ⟨[], rfl⟩
  | instr :: rest, i, h => by
    have hw : d.bytecode[i]? = some instr := by
      rw [← List.head?_drop, h]
      rfl
    have hrest : d.bytecode.drop (i + 1) = rest := by
      rw [← List.drop_drop, h]
      rfl
    obtain ⟨code', hcode'⟩ := rewriteFrom_isSome hv hrest
    rw [newPc_succ hw] at hcode'
    rw [rewriteFrom]
    by_cases hnoop : isNoop instr = true
    · rw [if_pos hnoop] at hcode' ⊢
      exact ⟨code', hcode'⟩
    · rw [if_neg hnoop] at hcode' ⊢
      rw [Bool.not_eq_true] at hnoop
      have hcheck := hv.instructions i instr hw
      obtain ⟨op, hop⟩ := exists_opcode hcheck
      obtain ⟨w', hrewrite, _⟩ := newPc_rewrite hcheck hop hw hnoop
      exact ⟨w' :: code', by rw [hrewrite, hcode']; rfl⟩

theorem toNat_le_of_ne {x : BitVec 32} (h : x ≠ BitVec.allOnes 32) : x.toNat < 2 ^ 32 - 1 := by
  have hlt := x.isLt
  have hne : x.toNat ≠ 2 ^ 32 - 1 := fun heq => h (BitVec.eq_of_toNat_eq (heq.trans (by decide)))
  omega

/-- A symbol that was checked is moved, and passes the check of the packed function. -/
theorem moveSymbol_verified (hv : Verified d) (hd' : d'.bytecode.length = newPc d.bytecode d.bytecode.length)
    (hslots : d'.slotcount = d.slotcount) (henv : d'.environmentsLength = d.environmentsLength) {jsm : SymbolMap}
    (hcheck : verifySymbol d jsm = 0)
    (hend : jsm.birthPc ≠ BitVec.allOnes 32 → jsm.deathPc ≠ BitVec.allOnes 32) :
    ∃ jsm', moveSymbol (pcMapFrom 0 d.bytecode) jsm = some jsm' ∧ verifySymbol d' jsm' = 0 := by
  unfold moveSymbol
  by_cases hup : jsm.birthPc = BitVec.allOnes 32
  · refine ⟨jsm, if_pos hup, ?_⟩
    obtain ⟨hnamed, hbounds⟩ := verifySymbol_eq_zero.mp hcheck
    rw [if_pos hup] at hbounds
    exact verifySymbol_eq_zero.mpr ⟨hnamed, by rwa [if_pos hup, henv]⟩
  · rw [if_neg hup]
    have hdeath := hend hup
    obtain ⟨hnamed, hbounds⟩ := verifySymbol_eq_zero.mp hcheck
    rw [if_neg hup] at hbounds
    obtain ⟨hslot, hbirth, hdeath'⟩ := hbounds
    have hdeath' := hdeath' hdeath
    have hmap := @pcMapFrom_eq d.bytecode 0 jsm.birthPc.toNat (Nat.le_of_lt hbirth)
    have hmap' := @pcMapFrom_eq d.bytecode 0 jsm.deathPc.toNat hdeath'
    rw [Nat.zero_add] at hmap hmap'
    refine ⟨_, by rw [hmap, hmap']; rfl, ?_⟩
    have hlt := newPc_lt hv hbirth
    have hle := (@newPc_mono d.bytecode _ _ hdeath').1
    have hsmall := (@newPc_mono d.bytecode 0 jsm.birthPc.toNat (Nat.zero_le _)).2
    have hsmall' := (@newPc_mono d.bytecode 0 jsm.deathPc.toNat (Nat.zero_le _)).2
    have hb := toNat_le_of_ne hup
    have hd := toNat_le_of_ne hdeath
    rw [newPc_zero] at hsmall hsmall'
    have hb' : (BitVec.ofNat 32 (newPc d.bytecode jsm.birthPc.toNat)).toNat = newPc d.bytecode jsm.birthPc.toNat := by
      rw [BitVec.toNat_ofNat, Nat.mod_eq_of_lt (by omega)]
    have hd'' : (BitVec.ofNat 32 (newPc d.bytecode jsm.deathPc.toNat)).toNat = newPc d.bytecode jsm.deathPc.toNat := by
      rw [BitVec.toNat_ofNat, Nat.mod_eq_of_lt (by omega)]
    have hne : BitVec.ofNat 32 (newPc d.bytecode jsm.birthPc.toNat) ≠ BitVec.allOnes 32 := fun heq => by
      have := congrArg BitVec.toNat heq
      rw [hb', BitVec.toNat_allOnes] at this
      omega
    refine verifySymbol_eq_zero.mpr ⟨hnamed, ?_⟩
    rw [if_neg hne, hb', hd'', hslots, hd']
    exact ⟨hslot, hlt, fun _ => hle⟩

/-- The new word of an instruction passes the check of the packed function. -/
theorem RemovesNoops.check (h : RemovesNoops d d') (hv : Verified d) {i : Nat} (hw : d.bytecode[i]? = some w)
    (hnoop : isNoop w = false)
    (hrewrite : rewrite (pcMapFrom 0 d.bytecode) d.bytecode.length i (newPc d.bytecode i) w = some w') :
    verifyInstruction d' (newPc d.bytecode i) (newPc d.bytecode d.bytecode.length) w' = 0 := by
  have hcheck := hv.instructions i w hw
  obtain ⟨op, hop⟩ := exists_opcode hcheck
  obtain ⟨hslots, _, hjump⟩ := verified_operands hcheck hop
  unfold rewrite at hrewrite
  rw [hop] at hrewrite
  unfold verifyInstruction at hcheck ⊢
  rw [h.slotcount, h.constants, h.environments, h.defs]
  rw [hop] at hcheck
  cases op
  case jump =>
    obtain ⟨w'', hw'', hoffset, hlow⟩ := @retarget_spec d.bytecode i 8 w (Or.inl rfl) hw hnoop (hjump _ rfl)
    obtain rfl := Option.some.inj (hrewrite.symm.trans hw'')
    have hlt := @newPc_lt d hv (i + (w.sshiftRight 8).toInt).toNat (by have := hjump _ rfl; rw [signedD] at this; omega)
    rw [(opcode_congr hlow).1, hop]
    simp only [janetInstructions, signedD, hoffset]
    rw [if_neg (by omega)]
  case jumpIf | jumpIfNot | jumpIfNil | jumpIfNotNil =>
    obtain ⟨w'', hw'', hoffset, hlow⟩ := @retarget_spec d.bytecode i 16 w (Or.inr rfl) hw hnoop (hjump _ rfl)
    obtain rfl := Option.some.inj (hrewrite.symm.trans hw'')
    have hlt := @newPc_lt d hv (i + (w.sshiftRight 16).toInt).toNat
      (by have := hjump _ rfl; rw [signedE] at this; omega)
    have hslot := hslots (slotA w) (by simp [decode, Action.slots])
    rw [(@opcode_congr w w' (by omega)).1, hop]
    simp only [janetInstructions, signedE, hoffset, slotA_congr hlow]
    rw [if_neg (by omega), if_neg (by omega)]
  all_goals
    obtain rfl := Option.some.inj hrewrite
    rw [hop]
    exact hcheck

/-- A word of the packed function is the new word of an instruction. -/
theorem RemovesNoops.exists_instruction (h : RemovesNoops d d') {j : Nat} (hw' : d'.bytecode[j]? = some w') :
    ∃ i w, d.bytecode[i]? = some w ∧ isNoop w = false ∧ newPc d.bytecode i = j ∧
      rewrite (pcMapFrom 0 d.bytecode) d.bytecode.length i (newPc d.bytecode i) w = some w' := by
  obtain ⟨i, w, hw, hnoop, hi⟩ := exists_newPc (length_rewriteFrom h.code ▸ (List.getElem?_eq_some_iff.mp hw').1)
  obtain ⟨w'', hw'', hrewrite⟩ := rewriteFrom_eq h.code hw hnoop
  rw [Nat.zero_add, Nat.zero_add] at hrewrite
  rw [hi, hw'] at hw''
  cases hw''
  exact ⟨i, w, hw, hnoop, hi, hrewrite⟩

/-- The new word is of the same opcode. -/
theorem rewrite_opcode (hv : Verified d) {i : Nat} (hw : d.bytecode[i]? = some w) (hnoop : isNoop w = false)
    (hrewrite : rewrite (pcMapFrom 0 d.bytecode) d.bytecode.length i (newPc d.bytecode i) w = some w') :
    opcode w' = opcode w ∧ dispatched w' = dispatched w := by
  have hcheck := hv.instructions i w hw
  obtain ⟨op, hop⟩ := exists_opcode hcheck
  obtain ⟨w'', hw'', hop', hdispatched, _⟩ := newPc_rewrite hcheck hop hw hnoop
  cases hrewrite.symm.trans hw''
  exact ⟨hop'.trans hop.symm, hdispatched⟩

/-- The last instruction goes to the end. -/
theorem RemovesNoops.last (h : RemovesNoops d d') (hv : Verified d) :
    d'.bytecode.getLast?.map dispatched = d.bytecode.getLast?.map dispatched := by
  have hlength := length_rewriteFrom h.code
  have hnonempty := newPc_lt hv hv.nonempty
  obtain ⟨w', hw'⟩ : ∃ w', d'.bytecode[d'.bytecode.length - 1]? = some w' :=
    ⟨_, List.getElem?_eq_getElem (by omega)⟩
  obtain ⟨i, w, hw, hnoop, hi, hrewrite⟩ := h.exists_instruction hw'
  have hlast : i = d.bytecode.length - 1 := by
    have hi' := (List.getElem?_eq_some_iff.mp hw).1
    by_contra hne
    have hsucc := newPc_succ hw
    rw [hnoop, if_neg Bool.false_ne_true] at hsucc
    have := @newPc_lt d hv (i + 1) (by omega)
    omega
  subst hlast
  rw [List.getLast?_eq_getElem?, List.getLast?_eq_getElem?, hw', hw, Option.map_some, Option.map_some,
    (rewrite_opcode hv hw hnoop hrewrite).2]

theorem forall_mapM {α β : Type} {f : α → Option β} {P : β → Prop} : ∀ {xs : List α},
    (∀ x ∈ xs, ∃ y, f x = some y ∧ P y) → ∃ ys, xs.mapM f = some ys ∧ ∀ y ∈ ys, P y
  | [], _ => ⟨[], rfl, by simp⟩
  | x :: xs, h => by
    obtain ⟨y, hy, hp⟩ := h x (List.mem_cons_self ..)
    obtain ⟨ys, hys, hps⟩ := forall_mapM fun x' hx' => h x' (List.mem_cons_of_mem _ hx')
    refine ⟨y :: ys, by rw [List.mapM_cons, hy, hys]; rfl, fun y' hy' => ?_⟩
    rcases List.mem_cons.mp hy' with rfl | hy'
    · exact hp
    · exact hps y' hy'

/-- **The pass takes verified bytecode to verified bytecode**, in which nothing does nothing. -/
theorem removeNoops_verified (hv : Verified d) (hsymbols : d.SymbolsEnd) :
    ∃ d', removeNoops d = some d' ∧ Verified d' ∧ ∀ w ∈ d'.bytecode, isNoop w = false := by
  obtain ⟨code, hcode⟩ := rewriteFrom_isSome hv (List.drop_zero : d.bytecode.drop 0 = d.bytecode)
  rw [newPc_zero] at hcode
  have hlength := length_rewriteFrom hcode
  obtain ⟨symbols, hmap, hall⟩ := @forall_mapM _ _ (moveSymbol (pcMapFrom 0 d.bytecode))
    (fun jsm => verifySymbol { d with bytecode := code } jsm = 0) d.symbolmap fun jsm hjsm =>
      @moveSymbol_verified d { d with bytecode := code } hv hlength rfl rfl jsm (hv.symbols jsm hjsm) (hsymbols jsm hjsm)
  have hremove : removeNoops d = some { d with
      bytecode := code, symbolmap := symbols, sourcemap := d.sourcemap.map (packMap d.bytecode) } := by
    rw [removeNoops, hcode, hmap]
    rfl
  have h := removeNoops_spec hremove
  have hnonempty : 0 < newPc d.bytecode d.bytecode.length :=
    Nat.lt_of_le_of_lt (Nat.zero_le _) (newPc_lt hv hv.nonempty)
  refine ⟨_, hremove, ⟨hv.environments, by rw [← hlength] at hnonempty; exact hnonempty, hv.arity, ?_, ?_, hall⟩, ?_⟩
  · intro j w' hw'
    obtain ⟨i, w, hw, hnoop, rfl, hrewrite⟩ := h.exists_instruction hw'
    have hcheck := h.check hv hw hnoop hrewrite
    rw [← hlength] at hcheck
    exact hcheck
  · have hlast := hv.last
    unfold verifyLast at hlast ⊢
    rw [h.last hv]
    exact hlast
  · intro w' hw'
    obtain ⟨j, hj⟩ := List.getElem?_of_mem hw'
    obtain ⟨i, w, hw, hnoop, _, hrewrite⟩ := h.exists_instruction hj
    rw [Bool.eq_false_iff, ne_eq, isNoop_iff, (rewrite_opcode hv hw hnoop hrewrite).1, ← isNoop_iff, hnoop]
    exact Bool.false_ne_true

end Preserves

end SwiftJanet.Bytecode
