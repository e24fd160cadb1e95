import Mathlib.Tactic.ByContra
import SwiftJanet.Bytecode.Interpreter

/-!
# Verified bytecode

`janetVerify`: the check that bytecode has to pass before it is run, with its error codes. A function that passes it never
leaves its bytecode, its slots, or its tables of constants, definitions and environments, whatever the rest of the VM
does (`verified_inside`).
-/

namespace SwiftJanet.Bytecode

open Lib

/-! ## The check -/

/-- The check of one instruction, at `i` of `n`. -/
def verifyInstruction (d : FuncDef) (i n : Nat) (instr : Word) : Nat :=
  match opcode instr with
  | none => 3
  | some op =>
    let sc := d.slotcount
    match janetInstructions op with
    | .zero => 0
    | .s => if slotD instr ≥ sc then 4 else 0
    | .si | .su | .st => if slotA instr ≥ sc then 4 else 0
    | .l => if i + signedD instr < 0 ∨ i + signedD instr ≥ n then 5 else 0
    | .ss => if slotA instr ≥ sc ∨ slotE instr ≥ sc then 4 else 0
    | .ssi | .ssu => if slotA instr ≥ sc ∨ slotB instr ≥ sc then 4 else 0
    | .sl => if slotA instr ≥ sc then 4 else if i + signedE instr < 0 ∨ i + signedE instr ≥ n then 5 else 0
    | .sss => if slotA instr ≥ sc ∨ slotB instr ≥ sc ∨ slotC instr ≥ sc then 4 else 0
    | .sd => if slotA instr ≥ sc then 4 else if slotE instr ≥ d.defsLength then 6 else 0
    | .sc => if slotA instr ≥ sc then 4 else if slotE instr ≥ d.constants.length then 7 else 0
    | .ses => if slotA instr ≥ sc then 4 else if slotB instr ≥ d.environmentsLength then 8 else 0

/-- The loop over the instructions, from the `i`th of `n` on. -/
def verifyInstructions (d : FuncDef) (n : Nat) : Nat → List Word → Nat
  | _, [] => 0
  | i, instr :: rest =>
    match verifyInstruction d i n instr with
    | 0 => verifyInstructions d n (i + 1) rest
    | code => code

/-- The last instruction has to leave the bytecode, or jump. -/
def verifyLast (d : FuncDef) : Nat :=
  match (d.bytecode.getLast?.map dispatched).join with
  | some .ret | some .retNil | some .jump | some .error | some .tailcall => 0
  | _ => 9

/-- The check of the lifetime of a symbol, or of the environment of an upvalue. -/
def verifyLifetime (d : FuncDef) (jsm : SymbolMap) : Nat :=
  if jsm.birthPc = BitVec.allOnes 32 then (if jsm.deathPc.toNat ≥ d.environmentsLength then 10 else 0)
  else if jsm.slotIndex.toNat ≥ d.slotcount then 11
  else if jsm.birthPc.toNat ≥ d.bytecode.length then 12
  else if jsm.deathPc ≠ BitVec.allOnes 32 ∧ jsm.deathPc.toNat > d.bytecode.length then 13
  else 0

/-- The check of one entry of the symbol map. -/
def verifySymbol (d : FuncDef) (jsm : SymbolMap) : Nat :=
  match verifyLifetime d jsm with
  | 0 => if !jsm.named then 14 else 0
  | code => code

/-- The loop over the symbol map. -/
def verifySymbols (d : FuncDef) : List SymbolMap → Nat
  | [] => 0
  | jsm :: rest =>
    match verifySymbol d jsm with
    | 0 => verifySymbols d rest
    | code => code

/-- The slots of the arguments. -/
def FuncDef.maxslot (d : FuncDef) : Nat := d.arity + (if d.vararg then 1 else 0)

/-- `janet_verify`. -/
def janetVerify (d : FuncDef) : Nat :=
  if d.environmentsLength > 256 then 15
  else if d.bytecode.length = 0 then 1
  else if d.maxslot > d.slotcount then 2
  else match verifyInstructions d d.bytecode.length 0 d.bytecode with
    | 0 =>
      match verifyLast d with
      | 0 => verifySymbols d d.symbolmap.reverse
      | code => code
    | code => code

/-! ## What it says -/

section Says

variable {d : FuncDef} {n i pc : Nat} {w : Word} {op : Opcode}

theorem verifyInstructions_eq_zero : ∀ {code : List Word} {i : Nat}, verifyInstructions d n i code = 0 ↔
    ∀ (j : Nat) (w : Word), code[j]? = some w → verifyInstruction d (i + j) n w = 0
  | [], i => by simp [verifyInstructions]
  | instr :: rest, i => by
    have ih := @verifyInstructions_eq_zero rest (i + 1)
    unfold verifyInstructions
    constructor
    · intro h
      split at h
      · next h0 =>
        rintro (_ | j) w hw
        · cases hw
          exact h0
        · have hj := ih.mp h j w (by simpa using hw)
          rwa [show i + (j + 1) = i + 1 + j by omega]
      · next hne => exact absurd h (by simpa using hne)
    · intro h
      have h0 := h 0 instr rfl
      rw [Nat.add_zero] at h0
      rw [h0]
      refine ih.mpr fun j w hw => ?_
      have hj := h (j + 1) w (by simpa using hw)
      rwa [show i + 1 + j = i + (j + 1) by omega]

theorem code_eq_zero {c : Prop} [Decidable c] {code rest : Nat} [NeZero code] :
    (if c then code else rest) = 0 ↔ ¬c ∧ rest = 0 := by
  split
  · next h => exact ⟨fun h0 => absurd h0 (NeZero.ne code), fun h0 => absurd h h0.1⟩
  · next h => exact ⟨fun h0 => ⟨h, h0⟩, fun h0 => h0.2⟩

/-- The entries that pass. -/
theorem verifySymbol_eq_zero {jsm : SymbolMap} : verifySymbol d jsm = 0 ↔ jsm.named = true ∧
    if jsm.birthPc = BitVec.allOnes 32 then jsm.deathPc.toNat < d.environmentsLength
    else jsm.slotIndex.toNat < d.slotcount ∧ jsm.birthPc.toNat < d.bytecode.length ∧
      (jsm.deathPc ≠ BitVec.allOnes 32 → jsm.deathPc.toNat ≤ d.bytecode.length) := by
  have hlifetime : verifyLifetime d jsm = 0 ↔
      if jsm.birthPc = BitVec.allOnes 32 then jsm.deathPc.toNat < d.environmentsLength
      else jsm.slotIndex.toNat < d.slotcount ∧ jsm.birthPc.toNat < d.bytecode.length ∧
        (jsm.deathPc ≠ BitVec.allOnes 32 → jsm.deathPc.toNat ≤ d.bytecode.length) := by
    unfold verifyLifetime
    by_cases hup : jsm.birthPc = BitVec.allOnes 32
    · simp only [if_pos hup, code_eq_zero, and_true, Nat.not_le, ge_iff_le]
    · simp only [if_neg hup, code_eq_zero, and_true, Nat.not_le, ge_iff_le, gt_iff_lt, not_and, Nat.not_lt]
  rw [← hlifetime, verifySymbol]
  cases verifyLifetime d jsm with
  | zero => cases jsm.named <;> simp
  | succ code => simp

theorem verifySymbols_eq_zero : ∀ {symbols : List SymbolMap}, verifySymbols d symbols = 0 ↔
    ∀ jsm ∈ symbols, verifySymbol d jsm = 0
  | [] => by simp [verifySymbols]
  | jsm :: rest => by
    rw [List.forall_mem_cons, ← verifySymbols_eq_zero, verifySymbols]
    split
    · next h0 => rw [h0, eq_self_iff_true, true_and]
    · next hne => exact ⟨fun h => absurd h hne, fun h => h.1⟩

/-- What `janet_verify` promises. -/
structure Verified (d : FuncDef) : Prop where
  environments : d.environmentsLength ≤ 256
  nonempty : 0 < d.bytecode.length
  arity : d.maxslot ≤ d.slotcount
  instructions : ∀ (i : Nat) (w : Word), d.bytecode[i]? = some w → verifyInstruction d i d.bytecode.length w = 0
  last : verifyLast d = 0
  symbols : ∀ jsm ∈ d.symbolmap, verifySymbol d jsm = 0

theorem janetVerify_eq_zero : janetVerify d = 0 ↔ Verified d := by
  have hinstructions := @verifyInstructions_eq_zero d d.bytecode.length d.bytecode 0
  have hsymbols := @verifySymbols_eq_zero d d.symbolmap.reverse
  simp only [Nat.zero_add] at hinstructions
  simp only [List.mem_reverse] at hsymbols
  constructor
  · intro h
    unfold janetVerify at h
    split at h
    · cases h
    · next henv =>
      split at h
      · cases h
      · next hempty =>
        split at h
        · cases h
        · next harity =>
          split at h
          · next hcode =>
            split at h
            · next hlast =>
              exact ⟨by omega, by omega, Nat.le_of_not_gt harity, hinstructions.mp hcode, hlast, hsymbols.mp h⟩
            · next hne => exact absurd h hne
          · next hne => exact absurd h hne
  · intro h
    rw [janetVerify, if_neg (Nat.not_lt.mpr h.environments), if_neg (Nat.pos_iff_ne_zero.mp h.nonempty),
      if_neg (Nat.not_lt.mpr h.arity), hinstructions.mpr h.instructions, h.last]
    exact hsymbols.mpr h.symbols

end Says

/-! ## Operands -/

section Operands

variable {d : FuncDef} {n i pc : Nat} {w : Word} {op : Opcode}

theorem toNat_and_FF (w : Word) : (w &&& 0xFF#32).toNat = w.toNat % 2 ^ 8 := by
  rw [BitVec.toNat_and]
  exact Nat.and_two_pow_sub_one_eq_mod _ 8

theorem toNat_and_7F (w : Word) : (w &&& 0x7F#32).toNat = w.toNat % 2 ^ 7 := by
  rw [BitVec.toNat_and]
  exact Nat.and_two_pow_sub_one_eq_mod _ 7

theorem slotA_eq (w : Word) : slotA w = w.toNat / 2 ^ 8 % 2 ^ 8 := by
  rw [slotA, toNat_and_FF, BitVec.toNat_ushiftRight, Nat.shiftRight_eq_div_pow]

theorem slotD_eq (w : Word) : slotD w = w.toNat / 2 ^ 8 := by
  rw [slotD, BitVec.toNat_ushiftRight, Nat.shiftRight_eq_div_pow]

theorem slotA_le (w : Word) : slotA w ≤ slotD w := by
  rw [slotA_eq, slotD_eq]
  exact Nat.mod_le _ _

theorem ofByte_lt {n : Nat} (h : Opcode.ofByte n = some op) : n < 77 := (List.getElem?_eq_some_iff.mp h).1

/-- Without the bit of a breakpoint, what is dispatched is the opcode. -/
theorem opcode_of_dispatched (h : dispatched w = some op) : opcode w = some op := by
  have hlt := ofByte_lt h
  rw [opcode, ← h, dispatched, toNat_and_7F, toNat_and_FF]
  rw [toNat_and_FF] at hlt
  congr 1
  omega

/-- A verified instruction is one. -/
theorem exists_opcode (h : verifyInstruction d i n w = 0) : ∃ op, opcode w = some op := by
  cases hop : opcode w with
  | some op => exact ⟨op, rfl⟩
  | none =>
    rw [verifyInstruction, hop] at h
    cases h

/-- The slots that an action uses. -/
def Action.slots : Action → List Nat
  | .skip => []
  | .raise slot => [slot]
  | .giveBack slot => slot.toList
  | .load target _ => [target]
  | .loadConstant target _ => [target]
  | .loadSelf target => [target]
  | .move target source => [target, source]
  | .jump test _ => (test.map Prod.snd).toList
  | .tailcall callee => [callee]
  | .operate _ reads target => reads ++ target.toList

/-- Where an action jumps to. -/
def Action.offset : Action → Option Int
  | .jump _ offset => some offset
  | _ => none

/-- The operands of a verified instruction are there. -/
theorem verified_operands (h : verifyInstruction d i n w = 0) (hop : opcode w = some op) :
    (∀ s ∈ (decode w op).slots, s < d.slotcount) ∧ failedAssert d w op = none ∧
      ∀ offset ∈ (decode w op).offset, 0 ≤ i + offset ∧ i + offset < n := by
  have hA := slotA_le w
  unfold verifyInstruction at h
  rw [hop] at h
  cases op <;> simp [janetInstructions, decode, Action.slots, Action.offset, failedAssert, code_eq_zero] at h ⊢ <;> omega

end Operands

/-! ## Runs -/

@[simp] theorem length_writeBack : ∀ {is : List Nat} {slots xs : List Janet},
    (writeBack slots is xs).length = slots.length
  | [], _, _ => by rw [writeBack]; simp
  | _ :: _, _, [] => by rw [writeBack]; simp
  | i :: is, slots, x :: xs => by rw [writeBack, length_writeBack, List.length_set]

theorem readAll_isSome : ∀ {is : List Nat} {slots : List Janet}, (∀ i ∈ is, i < slots.length) →
    ∃ xs, readAll slots is = some xs
  | [], _, _ => ⟨[], rfl⟩
  | i :: is, slots, h => by
    obtain ⟨xs, hxs⟩ := readAll_isSome fun j hj => h j (List.mem_cons_of_mem _ hj)
    have hi := List.getElem?_eq_getElem (h i (List.mem_cons_self ..))
    exact ⟨_, by rw [readAll, hi, hxs]; rfl⟩

section Runs

variable {W : Type} {d : FuncDef} {rest : Rest W} {self : Janet} {f : Frame W} {op : Opcode}

/-- The frame stands in its bytecode, and has its slots. -/
structure Frame.Inside (d : FuncDef) (f : Frame W) : Prop where
  pc : f.pc < d.bytecode.length
  slots : f.slots.length = d.slotcount

/-- The turn leaves no memory. -/
structure Stays (d : FuncDef) (turn : Turn (Frame W) (Exit W)) : Prop where
  goes : ∀ f, turn = .goes f → f.Inside d
  fault : turn ≠ .ends .fault

theorem stays_goes (h : f.Inside d) : Stays d (.goes f) :=
  ⟨fun _ h' => by cases h'; exact h, fun h' => by cases h'⟩

theorem stays_left {signal : Nat} {x : Janet} {place : Option SourceMapping} {xs : List Janet} {w : W} :
    Stays d (.ends (.left signal x place xs w)) :=
  ⟨fun _ h => (by cases h), fun h => (by cases h)⟩

theorem stays_returned {x : Janet} {xs : List Janet} {w : W} : Stays d (.ends (.returned x xs w)) :=
  ⟨fun _ h => (by cases h), fun h => (by cases h)⟩

theorem stays_write {target : Nat} {x : Janet} (hnext : f.pc + 1 < d.bytecode.length) (hs : f.slots.length = d.slotcount)
    (ht : target < d.slotcount) : Stays d (f.write target x) := by
  rw [Frame.write, if_pos (hs ▸ ht)]
  exact stays_goes ⟨hnext, by rw [← hs]; exact List.length_set⟩

theorem stays_jump {offset : Int} (hs : f.slots.length = d.slotcount)
    (h : 0 ≤ f.pc + offset ∧ f.pc + offset < d.bytecode.length) : Stays d (f.jump offset) := by
  rw [Frame.jump, if_pos h.1]
  refine stays_goes ⟨?_, hs⟩
  show (f.pc + offset).toNat < _
  omega

theorem stays_pausing {go : Turn (Frame W) (Exit W)} (h : f.Inside d) (hgo : Stays d go) :
    Stays d (f.pausing d rest go) := by
  unfold Frame.pausing
  cases rest.pause (seen d f.slots) f.world with
  | none => exact hgo
  | resumed xs w => exact stays_goes ⟨h.pc, by rw [← h.slots]; exact length_writeBack⟩
  | leaves => exact stays_left

theorem stays_reading {slot : Nat} {go : Janet → Turn (Frame W) (Exit W)} (hs : f.slots.length = d.slotcount)
    (h : slot < d.slotcount) (hgo : ∀ x, Stays d (go x)) : Stays d (f.reading slot go) := by
  rw [Frame.reading, List.getElem?_eq_getElem (hs ▸ h)]
  exact hgo _

theorem stays_asking {immediates : List Int} {args : List Janet}
    {go : Janet → List Janet → W → Turn (Frame W) (Exit W)} (hgo : ∀ x xs w, Stays d (go x xs w)) :
    Stays d (f.asking d rest op immediates args go) := by
  unfold Frame.asking
  cases rest.perform op immediates args (seen d f.slots) f.world with
  | leaves => exact stays_left
  | value x xs w => exact hgo x xs w

theorem stays_operate {immediates : List Int} {reads : List Nat} {target : Option Nat}
    (hnext : f.pc + 1 < d.bytecode.length) (hs : f.slots.length = d.slotcount)
    (h : ∀ s ∈ reads ++ target.toList, s < d.slotcount) : Stays d (f.operate d rest op immediates reads target) := by
  obtain ⟨args, hargs⟩ := readAll_isSome fun i hi => hs ▸ h i (List.mem_append_left _ hi)
  rw [Frame.operate, Frame.readingAll, hargs]
  refine stays_asking fun x xs w => ?_
  have hs' : (writeBack f.slots d.captured xs).length = d.slotcount := by rw [length_writeBack, hs]
  cases target with
  | none => exact stays_goes ⟨hnext, hs'⟩
  | some target => exact stays_write hnext hs' (h target (by simp))

/-- The next instruction is not behind the end, unless the action leaves the bytecode or jumps. -/
def Action.goesOn : Action → Bool
  | .raise _ | .giveBack _ | .jump none _ | .tailcall _ => false
  | _ => true

/-- An action whose operands are there stays inside. -/
theorem stays_perform {action : Action} (h : f.Inside d) (hslots : ∀ s ∈ action.slots, s < d.slotcount)
    (hjump : ∀ offset ∈ action.offset, 0 ≤ f.pc + offset ∧ f.pc + offset < d.bytecode.length)
    (hconstant : ∀ target index, action = .loadConstant target index → index < d.constants.length)
    (hnext : action.goesOn = true → f.pc + 1 < d.bytecode.length) : Stays d (f.perform d rest self op action) := by
  cases action with
  | skip => exact stays_goes ⟨hnext rfl, h.slots⟩
  | raise slot => exact stays_reading h.slots (hslots slot (by simp [Action.slots])) fun _ => stays_left
  | giveBack slot =>
    cases slot with
    | none => exact stays_returned
    | some slot => exact stays_reading h.slots (hslots slot (by simp [Action.slots])) fun _ => stays_returned
  | load target x => exact stays_write (hnext rfl) h.slots (hslots target (by simp [Action.slots]))
  | loadConstant target index =>
    have hx := List.getElem?_eq_getElem (hconstant target index rfl)
    rw [Frame.perform, hx]
    exact stays_write (hnext rfl) h.slots (hslots target (by simp [Action.slots]))
  | loadSelf target => exact stays_write (hnext rfl) h.slots (hslots target (by simp [Action.slots]))
  | move target source =>
    refine stays_reading h.slots (hslots source (by simp [Action.slots])) fun x => ?_
    exact stays_write (hnext rfl) h.slots (hslots target (by simp [Action.slots]))
  | jump test offset =>
    have hgo : Stays d (f.take d rest offset) := by
      have hj := @stays_jump _ _ f _ h.slots (hjump offset rfl)
      unfold Frame.take
      split
      · exact stays_pausing h hj
      · exact hj
    cases test with
    | none => exact hgo
    | some test =>
      refine stays_reading h.slots (hslots test.2 (by simp [Action.slots])) fun x => ?_
      split
      · exact hgo
      · exact stays_goes ⟨hnext rfl, h.slots⟩
  | tailcall callee =>
    refine stays_pausing h (stays_reading h.slots (hslots callee (by simp [Action.slots])) fun x => ?_)
    exact stays_asking fun _ _ _ => stays_returned
  | operate immediates reads target =>
    have hgo := @stays_operate _ _ rest f op immediates reads target (hnext rfl) h.slots hslots
    rw [Frame.perform]
    split
    · exact stays_pausing h hgo
    · exact hgo

/-- The last instruction does not go on. -/
theorem last_goesOn (h : verifyLast d = 0) {w : Word} (hlast : d.bytecode.getLast? = some w)
    (hop : dispatched w = some op) : (decode w op).goesOn = false := by
  unfold verifyLast at h
  rw [hlast] at h
  simp only [Option.map_some, Option.join_some, hop] at h
  split at h
  all_goals first | exact absurd h (by decide) | skip
  all_goals next heq => cases heq; rfl

/-- The instruction that the frame stands at can be carried out: its operands are there. -/
theorem verified_turn (hv : Verified d) (h : f.Inside d) {w : Word} (hw : d.bytecode[f.pc]? = some w)
    (hop : dispatched w = some op) : (∀ s ∈ (decode w op).slots, s < d.slotcount) ∧ failedAssert d w op = none ∧
      Stays d (f.perform d rest self op (decode w op)) := by
  obtain ⟨hslots, hassert, hjump⟩ := verified_operands (hv.instructions f.pc w hw) (opcode_of_dispatched hop)
  refine ⟨hslots, hassert, stays_perform h hslots hjump (fun target index heq => ?_) fun hgoes => ?_⟩
  · -- the constant that is loaded was asserted to be there
    cases op <;> simp only [decode, reduceCtorEq] at heq
    cases heq
    simpa [failedAssert] using hassert
  · have hpc := h.pc
    by_contra hend
    have hlast : d.bytecode.getLast? = some w := by
      rw [List.getLast?_eq_getElem?, ← hw]
      congr 1
      omega
    rw [last_goesOn hv.last hlast hop] at hgoes
    cases hgoes

theorem stays_step (hv : Verified d) (h : f.Inside d) : Stays d (f.step d rest self) := by
  obtain ⟨w, hw⟩ : ∃ w, d.bytecode[f.pc]? = some w := ⟨_, List.getElem?_eq_getElem h.pc⟩
  rw [Frame.step, hw]
  simp only
  cases hop : dispatched w with
  | none => exact stays_left
  | some op =>
    obtain ⟨_, hassert, hstays⟩ := @verified_turn _ _ rest self f op hv h _ hw hop
    simp only [hassert]
    exact hstays

/-- **Verified bytecode stays inside**: wherever a run from its first instruction leads, the frame stands in the
bytecode, the operands of the instruction there are slots, constants, definitions and environments of the function, and
the turn is no fault. -/
theorem verified_inside (h : janetVerify d = 0) {slots : List Janet} {world : W} (hs : slots.length = d.slotcount)
    (hl : Turn.Leads (Frame.step d rest self) ⟨0, slots, world⟩ f) :
    f.pc < d.bytecode.length ∧ f.step d rest self ≠ .ends .fault ∧
      ∀ w op, d.bytecode[f.pc]? = some w → dispatched w = some op →
        (∀ s ∈ (decode w op).slots, s < f.slots.length) ∧ failedAssert d w op = none := by
  have hv := janetVerify_eq_zero.mp h
  have hinside : f.Inside d := hl.keeps (I := Frame.Inside d) ⟨hv.nonempty, hs⟩
    fun s t hs ht => (stays_step hv hs).goes t ht
  refine ⟨hinside.pc, (stays_step hv hinside).fault, fun w op hw hop => ?_⟩
  obtain ⟨hslots, hassert, _⟩ := @verified_turn _ _ rest self f op hv hinside w hw hop
  exact ⟨fun s hs => hinside.slots ▸ hslots s hs, hassert⟩

/-- Nothing that is asked of the rest of the VM succeeds. -/
def failing : Rest Unit where
  perform _ _ _ xs w := .leaves 1 janetWrapNil xs w
  pause _ _ := .none
  panic _ w := (janetWrapNil, w)

/-- `(fn [x] (while x))`. -/
def waiting : FuncDef where
  bytecode := [0x0002001E#32, 0xFFFFFF1C#32, 0x00000004#32]
  sourcemap := none
  symbolmap := []
  closureBitset := none
  constants := []
  slotcount := 1
  arity := 1
  vararg := false
  environmentsLength := 0
  defsLength := 0

/-- A loop, after its first round. -/
theorem verified_inside_waiting : (1 : Nat) < 3 ∧
    Frame.step waiting failing janetWrapNil ⟨1, [janetWrapTrue], ()⟩ ≠ .ends .fault :=
  have h := @verified_inside Unit waiting failing janetWrapNil ⟨1, [janetWrapTrue], ()⟩ rfl [janetWrapTrue] () rfl
    (.step (.step (.step .refl rfl) rfl) rfl)
  ⟨h.1, h.2.1⟩

end Runs

end SwiftJanet.Bytecode
