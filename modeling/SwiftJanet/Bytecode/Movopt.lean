import SwiftJanet.Bytecode.Registers
import SwiftJanet.Bytecode.Verify

/-!
# Removing writes that nothing reads

`movopt`: the pass that replaces loads, moves and other instructions by instructions that do nothing, if no instruction
reads the slot that they write, and no closure can reach it; again and again until nothing is left to replace.

- `touches` and `removes`: the tables of the pass, which say of each instruction at least what `decode` says
  (`reads_touches`, `removes_writes`);
- `Rest.Forgets`: the rest of the VM does not notice what is not used any more;
- after a pass the function does what it did (`simulates_pass`), unless it fails at an instruction that was replaced. To
  get a value out of a structure can fail, although the pass replaces it.
-/

namespace SwiftJanet.Bytecode

open Lib

/-! ## The pass -/

/-- The slots that the pass takes an instruction to read. -/
def touches (w : Word) : Opcode → List Nat
  | .jump | .noop | .retNil | .loadInteger | .loadConstant | .loadUpvalue | .closure | .loadNil | .loadTrue | .loadFalse
  | .loadSelf => []
  | .makeArray | .makeBuffer | .makeString | .makeStruct | .makeTable | .makeTuple | .makeBracketTuple => [slotD w]
  | .error | .typecheck | .jumpIf | .jumpIfNot | .jumpIfNil | .jumpIfNotNil | .setUpvalue | .moveFar => [slotA w]
  | .signal | .addImmediate | .subtractImmediate | .multiplyImmediate | .divideImmediate | .shiftLeftImmediate
  | .shiftRightImmediate | .shiftRightUnsignedImmediate | .greaterThanImmediate | .lessThanImmediate | .equalsImmediate
  | .notEqualsImmediate | .getIndex => [slotB w]
  | .ret | .push | .pushArray | .tailcall => [slotD w]
  | .moveNear | .length | .bnot | .call => [slotE w]
  | .putIndex => [slotA w, slotB w]
  | .push2 => [slotA w, slotE w]
  | .propagate | .band | .bor | .bxor | .add | .subtract | .multiply | .divide | .divideFloor | .modulo | .remainder
  | .shiftLeft | .shiftRight | .shiftRightUnsigned | .greaterThan | .lessThan | .equals | .compare | .inKey | .get
  | .greaterThanEqual | .lessThanEqual | .notEquals | .cancel | .resume | .next => [slotB w, slotC w]
  | .put | .push3 => [slotA w, slotB w, slotC w]

/-- The slot that an instruction writes, if the pass may replace it. -/
def removes (w : Word) : Opcode → Option Nat
  | .loadNil | .loadTrue | .loadFalse | .loadSelf | .makeArray | .makeTuple | .makeBracketTuple => some (slotD w)
  | .moveFar => some (slotE w)
  | .moveNear | .getIndex | .loadInteger | .loadConstant | .loadUpvalue | .closure => some (slotA w)
  | _ => none

/-- Touch some registers. -/
def touchAll (ra : RegisterAllocator) : List Nat → RegisterAllocator
  | [] => ra
  | reg :: regs => touchAll (ra.touch reg) regs

/-- The loop that touches what is read. An instruction that is none aborts. -/
def touchReads (ra : RegisterAllocator) : List Word → Option RegisterAllocator
  | [] => some ra
  | w :: code => do
    let op ← opcode w
    touchReads (touchAll ra (touches w op)) code

/-- The loop that replaces what writes a slot that was not touched, and whether it replaced anything. -/
def sweep (ra : RegisterAllocator) : List Word → List Word × Bool
  | [] => ([], false)
  | w :: code =>
    match (opcode w).bind (removes w) with
    | none =>
      let (code, recur) := sweep ra code
      (w :: code, recur)
    | some slot =>
      let (live, ra) := ra.check slot
      let (code, recur) := sweep ra code
      if live then (w :: code, recur) else (0#32 :: code, true)

/-- One turn of the loop in `janet_bytecode_movopt`. -/
def movoptPass (d : FuncDef) : Option (FuncDef × Bool) := do
  let ra ← touchReads (touchAll .init d.captured) d.bytecode
  let (bytecode, recur) := sweep ra d.bytecode
  some ({ d with bytecode }, recur)

/-- The loop, for at most `n` turns. -/
def movoptFor : Nat → FuncDef → Option FuncDef
  | 0, _ => none
  | n + 1, d => do
    let (d, recur) ← movoptPass d
    if recur then movoptFor n d else some d

/-- `janet_bytecode_movopt`: each turn but the last replaces an instruction. -/
def movopt (d : FuncDef) : Option FuncDef := movoptFor (d.bytecode.length + 1) d

/-! ## The tables -/

section Tables

variable {w : Word} {op : Opcode} {slot : Nat}

/-- The slots that an action reads. -/
def Action.reads : Action → List Nat
  | .raise slot => [slot]
  | .giveBack slot => slot.toList
  | .move _ source => [source]
  | .jump test _ => (test.map Prod.snd).toList
  | .tailcall callee => [callee]
  | .operate _ reads _ => reads
  | _ => []

/-- **The pass misses no slot that is read.** -/
theorem reads_touches : ∀ s ∈ (decode w op).reads, s ∈ touches w op := by
  cases op <;> simp [decode, Action.reads, touches]

/-- What can be replaced: it does nothing but write the slot. -/
inductive Replaceable (slot : Nat) : Opcode → Action → Prop
  | load {op : Opcode} {x : Janet} : Replaceable slot op (.load slot x)
  | loadConstant {op : Opcode} {index : Nat} : Replaceable slot op (.loadConstant slot index)
  | loadSelf {op : Opcode} : Replaceable slot op (.loadSelf slot)
  | move {op : Opcode} {source : Nat} : Replaceable slot op (.move slot source)
  | operate {op : Opcode} {immediates : List Int} {reads : List Nat}
    (h : op = .closure ∨ op = .loadUpvalue ∨ op = .getIndex) : Replaceable slot op (.operate immediates reads (some slot))

/-- **What the pass replaces does nothing but write the slot**, if the slot is not touched by the instruction itself. -/
theorem removes_writes (h : removes w op = some slot) (hs : slot ∉ touches w op) : Replaceable slot op (decode w op) := by
  cases op <;> simp only [removes, reduceCtorEq, Option.some.injEq] at h <;> subst h
  case closure | loadUpvalue | getIndex => exact .operate (by simp)
  case makeArray | makeTuple | makeBracketTuple => exact absurd (List.mem_cons_self ..) hs
  case moveFar | moveNear => exact .move
  case loadConstant => exact .loadConstant
  case loadSelf => exact .loadSelf
  all_goals exact .load

end Tables

/-! ## What is replaced -/

section Replaced

variable {ra ra' : RegisterAllocator} {code : List Word} {w : Word} {op : Opcode} {reg r i slot : Nat} {d d' : FuncDef}

theorem used_touchAll : ∀ {regs : List Nat} {ra : RegisterAllocator},
    (touchAll ra regs).used r = true ↔ r ∈ regs ∨ ra.used r = true
  | [], _ => by simp [touchAll]
  | reg :: regs, ra => by
    rw [touchAll, used_touchAll, RegisterAllocator.used_touch, List.mem_cons, Bool.or_eq_true, decide_eq_true_iff,
      or_left_comm, or_assoc]

/-- What is read, and what was taken before, is taken. -/
theorem used_touchReads : ∀ {code : List Word} {ra ra' : RegisterAllocator}, touchReads ra code = some ra' →
    (ra.used r = true → ra'.used r = true) ∧
      ∀ w ∈ code, ∃ op, opcode w = some op ∧ (r ∈ touches w op → ra'.used r = true)
  | [], ra, ra', h => by
    cases h
    exact ⟨id, by simp⟩
  | w :: code, ra, ra', h => by
    obtain ⟨op, hop, h⟩ := Option.bind_eq_some_iff.mp h
    obtain ⟨hkept, hreads⟩ := used_touchReads h
    refine ⟨fun hr => hkept (used_touchAll.mpr (Or.inr hr)), fun w' hw' => ?_⟩
    rcases List.mem_cons.mp hw' with rfl | hw'
    · exact ⟨op, hop, fun hr => hkept (used_touchAll.mpr (Or.inl hr))⟩
    · exact hreads w' hw'

/-- What the second loop does to an instruction. -/
def Replaces (live : Nat → Bool) (w w' : Word) : Prop :=
  w' = w ∨ (w' = 0#32 ∧ ∃ op slot, opcode w = some op ∧ removes w op = some slot ∧ live slot = false)

theorem sweep_replaces {live : Nat → Bool} : ∀ {code : List Word} {ra : RegisterAllocator},
    (∀ r, ra.used r = live r) → List.Forall₂ (Replaces live) code (sweep ra code).1
  | [], _, _ => .nil
  | w :: code, ra, h => by
    rw [sweep]
    cases hremove : (opcode w).bind (removes w) with
    | none => exact .cons (Or.inl rfl) (sweep_replaces h)
    | some slot =>
      have hrest := @sweep_replaces live code (ra.check slot).2 fun r => by rw [RegisterAllocator.used_check, h]
      simp only
      by_cases hlive : (ra.check slot).1 = true
      · rw [if_pos hlive]
        exact .cons (Or.inl rfl) hrest
      · rw [if_neg hlive]
        obtain ⟨op, hop, hslot⟩ := Option.bind_eq_some_iff.mp hremove
        refine .cons (Or.inr ⟨rfl, op, slot, hop, hslot, ?_⟩) hrest
        rw [← h, ← RegisterAllocator.check_eq]
        simpa using hlive

end Replaced

/-! ## What the rest of the VM does not notice -/

section Forgets

variable {W : Type} (alike : W → W → Prop)

/-- Answers that differ in nothing but what is not used any more. -/
inductive Answer.Alike : Answer W → Answer W → Prop
  | value {x : Janet} {xs : List Janet} {w w' : W} (h : alike w w') : Answer.Alike (.value x xs w) (.value x xs w')
  | leaves {signal : Nat} {x : Janet} {xs : List Janet} {w w' : W} (h : alike w w') :
    Answer.Alike (.leaves signal x xs w) (.leaves signal x xs w')

inductive Pause.Alike : Pause W → Pause W → Prop
  | none : Pause.Alike .none .none
  | resumed {xs : List Janet} {w w' : W} (h : alike w w') : Pause.Alike (.resumed xs w) (.resumed xs w')
  | leaves {signal : Nat} {x : Janet} {xs : List Janet} {w w' : W} (h : alike w w') :
    Pause.Alike (.leaves signal x xs w) (.leaves signal x xs w')

inductive Exit.Alike : Exit W → Exit W → Prop
  | returned {x : Janet} {xs : List Janet} {w w' : W} (h : alike w w') : Exit.Alike (.returned x xs w) (.returned x xs w')
  | left {signal : Nat} {x : Janet} {place : Option SourceMapping} {xs : List Janet} {w w' : W} (h : alike w w') :
    Exit.Alike (.left signal x place xs w) (.left signal x place xs w')
  | fault : Exit.Alike .fault .fault

/-- The rest of the VM does the same in worlds that are alike, and the operations that are dropped leave a world that is
like the one before. -/
structure Rest.Forgets (rest : Rest W) (drops : Opcode → Prop) : Prop where
  refl : ∀ w, alike w w
  trans : ∀ {w w' w''}, alike w w' → alike w' w'' → alike w w''
  perform : ∀ {op immediates args xs w w'}, alike w w' →
    (rest.perform op immediates args xs w).Alike alike (rest.perform op immediates args xs w')
  pause : ∀ {xs w w'}, alike w w' → (rest.pause xs w).Alike alike (rest.pause xs w')
  panic : ∀ {message w w'}, alike w w' →
    (rest.panic message w).1 = (rest.panic message w').1 ∧ alike (rest.panic message w).2 (rest.panic message w').2
  forget : ∀ {op immediates args xs w x xs' w'}, drops op →
    rest.perform op immediates args xs w = .value x xs' w' → xs' = xs ∧ alike w' w

end Forgets

/-- The first function has an instruction of this kind that the second has not. -/
def Drops (d m : FuncDef) (op : Opcode) : Prop :=
  ∃ (i : Nat) (w : Word), d.bytecode[i]? = some w ∧ m.bytecode[i]? ≠ some w ∧ opcode w = some op

/-! ## Frames that agree on what is live -/

section Agree

variable {W : Type} {alike : W → W → Prop} {d d' : FuncDef} {rest : Rest W} {drops : Opcode → Prop} {self : Janet}
  {live : Nat → Bool} {f g : Frame W} {op : Opcode} {w w' : Word} {slot : Nat}

/-- The frames stand at one instruction, and agree on the slots that are live. -/
structure Agrees (alike : W → W → Prop) (live : Nat → Bool) (f g : Frame W) : Prop where
  pc : g.pc = f.pc
  length : g.slots.length = f.slots.length
  slots : ∀ s, live s = true → g.slots[s]? = f.slots[s]?
  world : alike f.world g.world

/-- The turns agree. -/
inductive TurnAgrees (alike : W → W → Prop) (live : Nat → Bool) : Turn (Frame W) (Exit W) → Turn (Frame W) (Exit W) → Prop
  | goes {f g : Frame W} (h : Agrees alike live f g) : TurnAgrees alike live (.goes f) (.goes g)
  | ends {o o' : Exit W} (h : o.Alike alike o') : TurnAgrees alike live (.ends o) (.ends o')

/-- What the pass makes of a function: it replaces what writes a slot that is not live. -/
structure Passes (d d' : FuncDef) (live : Nat → Bool) : Prop where
  code : List.Forall₂ (Replaces live) d.bytecode d'.bytecode
  captured : ∀ s ∈ d.captured, live s = true
  touches : ∀ w ∈ d.bytecode, ∃ op, opcode w = some op ∧ ∀ s ∈ touches w op, live s = true
  others : d' = { d with bytecode := d'.bytecode }

theorem Passes.seen (h : Passes d d' live) (ha : Agrees alike live f g) : seen d' g.slots = seen d f.slots := by
  have hd : d'.captured = d.captured := by rw [h.others]; rfl
  rw [Bytecode.seen, Bytecode.seen, hd]
  refine List.map_congr_left fun s hs => ?_
  rw [List.getD_eq_getElem?_getD, List.getD_eq_getElem?_getD, ha.slots s (h.captured s hs)]

theorem Passes.place (h : Passes d d' live) (ha : Agrees alike live f g) : d'.place g.pc = d.place f.pc := by
  rw [h.others, ha.pc]
  rfl

/-- Slots that agree still do when one is written. -/
theorem agrees_set {xs ys : List Janet} (hlength : ys.length = xs.length) {x : Janet}
    (h : ∀ s, live s = true → ys[s]? = xs[s]?) : ∀ s, live s = true → (ys.set slot x)[s]? = (xs.set slot x)[s]? := by
  intro s hs
  rw [List.getElem?_set, List.getElem?_set, hlength, h s hs]

theorem agrees_writeBack : ∀ {is : List Nat} {xs ys vals : List Janet}, ys.length = xs.length →
    (∀ s, live s = true → ys[s]? = xs[s]?) →
      ∀ s, live s = true → (writeBack ys is vals)[s]? = (writeBack xs is vals)[s]?
  | [], xs, ys, vals, _, h => by
    rw [writeBack, writeBack]
    · exact h
    · simp
    · simp
  | _ :: _, xs, ys, [], _, h => by
    rw [writeBack, writeBack]
    · exact h
    · simp
    · simp
  | i :: is, xs, ys, v :: vals, hlength, h => by
    rw [writeBack, writeBack]
    exact agrees_writeBack (by rw [List.length_set, List.length_set, hlength]) (agrees_set hlength h)

theorem agrees_next (h : Agrees alike live f g) :
    TurnAgrees alike live (.goes { f with pc := f.pc + 1 }) (.goes { g with pc := g.pc + 1 }) :=
  .goes ⟨congrArg (· + 1) h.pc, h.length, h.slots, h.world⟩

theorem agrees_write (h : Agrees alike live f g) (x : Janet) :
    TurnAgrees alike live (f.write slot x) (g.write slot x) := by
  unfold Frame.write
  rw [h.length]
  split
  · exact .goes ⟨congrArg (· + 1) h.pc, by rw [List.length_set, List.length_set]; exact h.length,
      agrees_set h.length h.slots, h.world⟩
  · exact .ends .fault

theorem agrees_jump (h : Agrees alike live f g) (offset : Int) :
    TurnAgrees alike live (f.jump offset) (g.jump offset) := by
  unfold Frame.jump
  rw [h.pc]
  split
  · exact .goes ⟨rfl, h.length, h.slots, h.world⟩
  · exact .ends .fault

theorem agrees_reading (h : Agrees alike live f g) (hs : live slot = true)
    {go go' : Janet → Turn (Frame W) (Exit W)} (hgo : ∀ x, TurnAgrees alike live (go x) (go' x)) :
    TurnAgrees alike live (f.reading slot go) (g.reading slot go') := by
  unfold Frame.reading
  rw [h.slots slot hs]
  cases f.slots[slot]? with
  | none => exact .ends .fault
  | some x => exact hgo x

theorem readAll_agrees (h : Agrees alike live f g) : ∀ {reads : List Nat}, (∀ s ∈ reads, live s = true) →
    readAll g.slots reads = readAll f.slots reads
  | [], _ => rfl
  | s :: reads, hs => by
    rw [readAll, readAll, h.slots s (hs s (List.mem_cons_self ..)),
      readAll_agrees h fun r hr => hs r (List.mem_cons_of_mem _ hr)]

section Passing

variable (hp : Passes d d' live) (hrest : rest.Forgets alike drops) (h : Agrees alike live f g)
include hp hrest h

theorem agrees_pausing {go go' : Turn (Frame W) (Exit W)} (hgo : TurnAgrees alike live go go') :
    TurnAgrees alike live (f.pausing d rest go) (g.pausing d' rest go') := by
  have hcaptured : d'.captured = d.captured := by rw [hp.others]; rfl
  have halike := @Rest.Forgets.pause _ _ _ _ hrest (seen d f.slots) _ _ h.world
  unfold Frame.pausing
  rw [hp.seen h, hp.place h, hcaptured]
  generalize rest.pause (seen d f.slots) f.world = pause at halike
  generalize rest.pause (seen d f.slots) g.world = pause' at halike
  cases halike with
  | none => exact hgo
  | resumed hw => exact .goes ⟨h.pc, by rw [length_writeBack, length_writeBack]; exact h.length,
      agrees_writeBack h.length h.slots, hw⟩
  | leaves hw => exact .ends (.left hw)

theorem agrees_asking {immediates : List Int} {args : List Janet}
    {go go' : Janet → List Janet → W → Turn (Frame W) (Exit W)}
    (hgo : ∀ x xs w w', alike w w' → TurnAgrees alike live (go x xs w) (go' x xs w')) :
    TurnAgrees alike live (f.asking d rest op immediates args go) (g.asking d' rest op immediates args go') := by
  have halike := @Rest.Forgets.perform _ _ _ _ hrest op immediates args (seen d f.slots) _ _ h.world
  unfold Frame.asking
  rw [hp.seen h, hp.place h]
  generalize rest.perform op immediates args (seen d f.slots) f.world = answer at halike
  generalize rest.perform op immediates args (seen d f.slots) g.world = answer' at halike
  cases halike with
  | value hw => exact hgo _ _ _ _ hw
  | leaves hw => exact .ends (.left hw)

theorem agrees_operate {immediates : List Int} {reads : List Nat} {target : Option Nat}
    (hs : ∀ s ∈ reads, live s = true) : TurnAgrees alike live (f.operate d rest op immediates reads target)
      (g.operate d' rest op immediates reads target) := by
  have hcaptured : d'.captured = d.captured := by rw [hp.others]; rfl
  rw [Frame.operate, Frame.operate, Frame.readingAll, Frame.readingAll, readAll_agrees h hs]
  cases readAll f.slots reads with
  | none => exact .ends .fault
  | some args =>
    refine agrees_asking hp hrest h fun x xs w w' hw => ?_
    have h' : Agrees alike live { f with slots := writeBack f.slots d.captured xs, world := w }
        { g with slots := writeBack g.slots d.captured xs, world := w' } :=
      ⟨h.pc, by rw [length_writeBack, length_writeBack]; exact h.length, agrees_writeBack h.length h.slots, hw⟩
    cases target with
    | none =>
      rw [Frame.settle, Frame.settle, hcaptured]
      exact agrees_next h'
    | some target =>
      rw [Frame.settle, Frame.settle, hcaptured]
      exact agrees_write h' x

/-- An action that reads what is live does the same in frames that agree. -/
theorem agrees_perform {action : Action} (hs : ∀ s ∈ action.reads, live s = true) :
    TurnAgrees alike live (f.perform d rest self op action) (g.perform d' rest self op action) := by
  have hseen := hp.seen h
  have hplace := hp.place h
  have htake : ∀ offset, TurnAgrees alike live (f.take d rest offset) (g.take d' rest offset) := fun offset => by
    unfold Frame.take
    split
    · exact agrees_pausing hp hrest h (agrees_jump h offset)
    · exact agrees_jump h offset
  cases action with
  | skip => exact agrees_next h
  | raise slot =>
    refine agrees_reading h (hs slot (by simp [Action.reads])) fun x => ?_
    rw [hseen, hplace]
    exact .ends (.left h.world)
  | giveBack slot =>
    cases slot with
    | none =>
      rw [Frame.perform, Frame.perform, hseen]
      exact .ends (.returned h.world)
    | some slot =>
      refine agrees_reading h (hs slot (by simp [Action.reads])) fun x => ?_
      rw [hseen]
      exact .ends (.returned h.world)
  | load target x => exact agrees_write h x
  | loadConstant target index =>
    have hconstants : d'.constants = d.constants := by rw [hp.others]
    rw [Frame.perform, Frame.perform, hconstants]
    cases d.constants[index]? with
    | none => exact .ends .fault
    | some x => exact agrees_write h x
  | loadSelf target => exact agrees_write h self
  | move target source => exact agrees_reading h (hs source (by simp [Action.reads])) fun x => agrees_write h x
  | jump test offset =>
    cases test with
    | none => exact htake offset
    | some test =>
      refine agrees_reading h (hs test.2 (by simp [Action.reads])) fun x => ?_
      split
      · exact htake offset
      · exact agrees_next h
  | tailcall callee =>
    refine agrees_pausing hp hrest h (agrees_reading h (hs callee (by simp [Action.reads])) fun x => ?_)
    exact agrees_asking hp hrest h fun x xs w w' hw => .ends (.returned hw)
  | operate immediates reads target =>
    have hgo := @agrees_operate _ _ _ _ rest _ _ _ _ op hp hrest h immediates reads target hs
    rw [Frame.perform, Frame.perform]
    split
    · exact agrees_pausing hp hrest h hgo
    · exact hgo

end Passing

/-! ## One pass -/

/-- The word of the function after the pass. -/
theorem Passes.word (hp : Passes d d' live) {i : Nat} (hw : d.bytecode[i]? = some w) :
    ∃ w', d'.bytecode[i]? = some w' ∧ Replaces live w w' := by
  obtain ⟨hlength, hget⟩ := List.forall₂_iff_get.mp hp.code
  obtain ⟨hi, rfl⟩ := List.getElem?_eq_some_iff.mp hw
  exact ⟨_, List.getElem?_eq_getElem (hlength ▸ hi), hget i hi (hlength ▸ hi)⟩

/-- To leave the captured slots as they were changes nothing. -/
theorem writeBack_seen : ∀ {is : List Nat} {slots : List Janet},
    writeBack slots is (is.map fun i => slots.getD i janetWrapNil) = slots
  | [], slots => by
    rw [writeBack]
    simp
  | i :: is, slots => by
    have hset : slots.set i (slots.getD i janetWrapNil) = slots := by
      rw [List.getD_eq_getElem?_getD]
      by_cases hi : i < slots.length
      · rw [List.getElem?_eq_getElem hi, Option.getD_some, List.set_getElem_self]
      · exact List.set_eq_of_length_le (by omega)
    rw [List.map_cons, writeBack, hset, writeBack_seen]

/-- A frame that wrote a slot that is not live agrees with one that did nothing. -/
theorem agrees_written (h : Agrees alike live f g) (hslot : live slot = false) {x : Janet} {world : W}
    (hworld : alike world g.world) : Agrees alike live { f with pc := f.pc + 1, slots := f.slots.set slot x, world := world }
      { g with pc := g.pc + 1 } := by
  refine ⟨congrArg (· + 1) h.pc, h.length.trans List.length_set.symm, fun s hs => ?_, hworld⟩
  have hne : slot ≠ s := by
    rintro rfl
    rw [hs] at hslot
    cases hslot
  show g.slots[s]? = (f.slots.set slot x)[s]?
  rw [List.getElem?_set_ne hne]
  exact h.slots s hs

/-- **An instruction that is replaced does nothing that is seen**, or fails. -/
theorem replaced_turn (hrest : rest.Forgets alike drops) (hdrops : drops op) (h : Agrees alike live f g)
    (hslot : live slot = false)
    {action : Action} (hreplaced : Replaceable slot op action) (hslots : ∀ s ∈ action.slots, s < f.slots.length)
    (hconstant : ∀ target index, action = .loadConstant target index → index < d.constants.length) :
    (∃ u, f.perform d rest self op action = .goes u ∧ Agrees alike live u { g with pc := g.pc + 1 }) ∨
      ∃ o, f.perform d rest self op action = .ends o := by
  have hwrite : ∀ x : Janet, slot < f.slots.length → ∃ u, f.write slot x = .goes u ∧
      Agrees alike live u { g with pc := g.pc + 1 } := fun x hlt =>
    ⟨_, by rw [Frame.write, if_pos hlt], agrees_written h hslot h.world⟩
  cases hreplaced with
  | @load x => exact Or.inl (hwrite x (hslots slot (by simp [Action.slots])))
  | loadConstant =>
    rw [Frame.perform, List.getElem?_eq_getElem (hconstant _ _ rfl)]
    exact Or.inl (hwrite _ (hslots slot (by simp [Action.slots])))
  | loadSelf => exact Or.inl (hwrite self (hslots slot (by simp [Action.slots])))
  | @move source =>
    rw [Frame.perform, Frame.reading, List.getElem?_eq_getElem (hslots source (by simp [Action.slots]))]
    exact Or.inl (hwrite _ (hslots slot (by simp [Action.slots])))
  | @operate immediates reads hop =>
    have hsuspends : op.suspends = false := by rcases hop with rfl | rfl | rfl <;> rfl
    obtain ⟨args, hargs⟩ := @readAll_isSome reads f.slots fun i hi => hslots i (List.mem_append_left _ hi)
    rw [Frame.perform, if_neg (by rw [hsuspends]; exact Bool.false_ne_true), Frame.operate, Frame.readingAll, hargs]
    simp only [Frame.asking]
    cases hanswer : rest.perform op immediates args (seen d f.slots) f.world with
    | leaves signal x xs w => exact Or.inr ⟨_, rfl⟩
    | value x xs w =>
      left
      obtain ⟨rfl, hworld⟩ := hrest.forget hdrops hanswer
      have hback : writeBack f.slots d.captured (seen d f.slots) = f.slots := writeBack_seen
      refine ⟨_, ?_, agrees_written (x := x) h hslot (hrest.trans hworld h.world)⟩
      simp only [Frame.settle, hback]
      exact if_pos (hslots slot (List.mem_append_right _ (by simp)))

/-- At each instruction the turns agree, or the instruction is replaced. -/
theorem turn_pass (hp : Passes d d' live) (hv : Verified d) (hb : d.Unbroken) (hrest : rest.Forgets alike drops)
    (hdrops : ∀ op, Drops d d' op → drops op) (hf : f.Inside d) (h : Agrees alike live f g) :
    TurnAgrees alike live (f.step d rest self) (g.step d' rest self) ∨
      (∃ u v, f.step d rest self = .goes u ∧ g.step d' rest self = .goes v ∧ Agrees alike live u v) ∨
        (∃ o, f.step d rest self = .ends o) ∧ d.bytecode[f.pc]? ≠ d'.bytecode[f.pc]? := by
  obtain ⟨w, hw⟩ : ∃ w, d.bytecode[f.pc]? = some w := ⟨_, List.getElem?_eq_getElem hf.pc⟩
  obtain ⟨op, hop, hlive⟩ := hp.touches w (List.mem_of_getElem? hw)
  have hdispatched := (hb w (List.mem_of_getElem? hw)).trans hop
  obtain ⟨hslots, hassert, _⟩ := @verified_turn _ _ rest self f op hv hf w hw hdispatched
  have hstep := @Frame.step_eq _ _ rest self _ _ _ hw hdispatched hassert
  obtain ⟨w', hw', hreplaces⟩ := hp.word hw
  rw [← h.pc] at hw'
  rcases hreplaces with rfl | ⟨rfl, op', slot, hop', hremoves, hslot⟩
  · left
    have hassert' : failedAssert d' w' op = none := by
      rw [hp.others]
      exact hassert
    rw [hstep, Frame.step_eq hw' hdispatched hassert']
    exact agrees_perform hp hrest h fun s hs => hlive s (reads_touches s hs)
  · right
    cases hop.symm.trans hop'
    have hslot' : slot ∉ touches w op := fun hmem => by
      rw [hlive slot hmem] at hslot
      cases hslot
    have hgoes : g.step d' rest self = .goes { g with pc := g.pc + 1 } :=
      @Frame.step_eq _ _ rest self _ _ .noop hw' rfl rfl
    have hconstant : ∀ target index, decode w op = .loadConstant target index → index < d.constants.length := by
      intro target index heq
      cases op <;> simp only [decode, reduceCtorEq] at heq
      cases heq
      simpa [failedAssert] using hassert
    have hne : d'.bytecode[f.pc]? ≠ some w := by
      rw [← h.pc, hw']
      rintro heq
      cases heq
      cases hop
      cases hremoves
    rcases @replaced_turn _ _ d rest drops self live f g op slot hrest (hdrops op ⟨f.pc, w, hw, hne, hop⟩) h hslot _
      (removes_writes hremoves hslot') (fun s hs => hf.slots ▸ hslots s hs) hconstant with ⟨u, hu, hagrees⟩ | ⟨o, ho⟩
    · exact Or.inl ⟨u, _, hstep.trans hu, hgoes, hagrees⟩
    · exact Or.inr ⟨⟨o, hstep.trans ho⟩, fun heq => hne (heq ▸ hw)⟩

/-- **A pass leaves what the function does**, unless it fails at an instruction that is replaced. -/
theorem simulates_pass (hp : Passes d d' live) (hv : Verified d) (hb : d.Unbroken) (hrest : rest.Forgets alike drops)
    (hdrops : ∀ op, Drops d d' op → drops op) :
    Turn.Simulates (Frame.step d rest self) (Frame.step d' rest self) (fun f g => f.Inside d ∧ Agrees alike live f g)
      (Exit.Alike alike) (fun _ => 0) fun f => d.bytecode[f.pc]? ≠ d'.bytecode[f.pc]? := by
  constructor
  · rintro f g u ⟨hf, h⟩ hgoes
    left
    have hu := (stays_step hv hf).goes u hgoes
    rcases turn_pass hp hv hb hrest hdrops hf h with hagrees | ⟨u', v, hu', hv', hagrees⟩ | ⟨⟨o, ho⟩, _⟩
    · rw [hgoes] at hagrees
      generalize hturn' : g.step d' rest self = turn at hagrees
      cases hagrees with
      | goes hagrees => exact ⟨_, rfl, hu, hagrees⟩
    · cases hgoes.symm.trans hu'
      exact ⟨v, hv', hu, hagrees⟩
    · cases hgoes.symm.trans ho
  · rintro f g o ⟨hf, h⟩ hends
    rcases turn_pass hp hv hb hrest hdrops hf h with hagrees | ⟨u', v, hu', _, _⟩ | ⟨_, hbad⟩
    · left
      rw [hends] at hagrees
      generalize hturn' : g.step d' rest self = turn at hagrees
      cases hagrees with
      | ends hagrees => exact ⟨_, rfl, hagrees⟩
    · cases hends.symm.trans hu'
    · exact Or.inr hbad

end Agree

/-! ## All passes -/

section Loop

variable {W : Type} {alike : W → W → Prop} {d d' m : FuncDef} {rest : Rest W} {drops : Opcode → Prop} {self : Janet}
  {live : Nat → Bool}
  {f : Frame W} {w w' : Word} {op : Opcode} {slot i n : Nat}

/-- What a pass replaces can be told from an instruction that does nothing. -/
theorem removes_ne (hop : opcode w = some op) (h : removes w op = some slot) : w ≠ 0#32 := by
  rintro rfl
  cases hop
  cases h

/-- The words of a function are left, or replaced. -/
structure Clears (d m : FuncDef) : Prop where
  length : m.bytecode.length = d.bytecode.length
  word : ∀ {i : Nat} {w : Word}, d.bytecode[i]? = some w → m.bytecode[i]? = some w ∨ m.bytecode[i]? = some 0#32
  others : m = { d with bytecode := m.bytecode }

theorem Passes.clears (hp : Passes d d' live) : Clears d d' := by
  refine ⟨hp.code.length_eq.symm, fun hw => ?_, hp.others⟩
  obtain ⟨w', hw', rfl | ⟨rfl, _⟩⟩ := hp.word hw
  · exact Or.inl hw'
  · exact Or.inr hw'

theorem Clears.trans (h : Clears d d') (h' : Clears d' m) : Clears d m := by
  refine ⟨h'.length.trans h.length, fun hw => ?_, ?_⟩
  · rcases h.word hw with hw' | hw'
    · exact h'.word hw'
    · exact Or.inr ((h'.word hw').elim id id)
  · have hm := h'.others
    rw [h.others] at hm
    exact hm

/-- A word that was replaced stays replaced. -/
theorem Clears.changed (h : Clears d d') (h' : Clears d' m) :
    (d.bytecode[i]? ≠ d'.bytecode[i]? → d.bytecode[i]? ≠ m.bytecode[i]?) ∧
      (d'.bytecode[i]? ≠ m.bytecode[i]? → d.bytecode[i]? ≠ m.bytecode[i]?) := by
  cases hw : d.bytecode[i]? with
  | none =>
    have hi := List.getElem?_eq_none_iff.mp hw
    rw [List.getElem?_eq_none (by rw [h.length]; exact hi),
      List.getElem?_eq_none (by rw [h'.length, h.length]; exact hi)]
    exact ⟨id, id⟩
  | some w =>
    rcases h.word hw with hw' | hw'
    · rw [hw']
      exact ⟨fun hne => absurd rfl hne, id⟩
    · have hm := (h'.word hw').elim id id
      rw [hw', hm]
      exact ⟨id, fun hne => absurd rfl hne⟩

/-- An instruction that is dropped on the way is dropped. -/
theorem Clears.dropped (h : Clears d d') (h' : Clears d' m) :
    (Drops d d' op → Drops d m op) ∧ (Drops d' m op → Drops d m op) := by
  refine ⟨fun ⟨i, w, hw, hne, hop⟩ => ⟨i, w, hw, fun hm => ?_, hop⟩, fun ⟨i, w, hw', hne, hop⟩ => ⟨i, w, ?_, hne, hop⟩⟩
  · exact (h.changed h').1 (fun heq => hne (heq ▸ hw)) (hw.trans hm.symm)
  · have hi := h.length ▸ (List.getElem?_eq_some_iff.mp hw').choose
    rcases h.word (List.getElem?_eq_getElem hi) with heq | heq
    · rw [List.getElem?_eq_getElem hi, ← heq, hw']
    · cases hw'.symm.trans heq
      exact absurd ((h'.word hw').elim id id) hne

/-- **A pass takes verified bytecode to verified bytecode**: it does not replace the last instruction. -/
theorem Passes.verified (hp : Passes d d' live) (hv : Verified d) : Verified d' := by
  have hlength := hp.clears.length
  have hd' := hp.others
  refine ⟨?_, hlength ▸ hv.nonempty, ?_, fun i w' hw' => ?_, ?_, fun jsm hjsm => ?_⟩
  · rw [hd']
    exact hv.environments
  · rw [hd']
    exact hv.arity
  · obtain ⟨w, hw⟩ : ∃ w, d.bytecode[i]? = some w :=
      ⟨_, List.getElem?_eq_getElem (hlength ▸ (List.getElem?_eq_some_iff.mp hw').1)⟩
    rcases hp.clears.word hw with heq | heq
    · cases hw'.symm.trans heq
      rw [hlength, hd']
      exact hv.instructions i w' hw
    · cases hw'.symm.trans heq
      rfl
  · obtain ⟨w, hw⟩ : ∃ w, d.bytecode[d.bytecode.length - 1]? = some w :=
      ⟨_, List.getElem?_eq_getElem (by have := hv.nonempty; omega)⟩
    have hlast : d.bytecode.getLast? = some w := List.getLast?_eq_getElem?.trans hw
    obtain ⟨w', hw', hreplaces⟩ := hp.word hw
    have hlast' : d'.bytecode.getLast? = some w' := by rw [List.getLast?_eq_getElem?, hlength, hw']
    have h := hv.last
    unfold verifyLast at h ⊢
    rcases hreplaces with rfl | ⟨rfl, op, slot, hop, hremoves, _⟩
    · rw [hlast'] at *
      rw [hlast] at h
      exact h
    · rw [hlast] at h
      simp only [Option.map_some, Option.join_some] at h
      -- what leaves the bytecode or jumps is not replaced
      split at h
      all_goals first | exact absurd h (by decide) | skip
      all_goals
        next hdispatched =>
          cases hop.symm.trans (opcode_of_dispatched hdispatched)
          cases hremoves
  · rw [hd'] at hjsm
    have h := verifySymbol_eq_zero.mp (hv.symbols jsm hjsm)
    refine verifySymbol_eq_zero.mpr ⟨h.1, ?_⟩
    rw [hlength, hd']
    exact h.2

theorem Passes.unbroken (hp : Passes d d' live) (hb : d.Unbroken) : d'.Unbroken := by
  intro w' hw'
  obtain ⟨i, hi⟩ := List.getElem?_of_mem hw'
  obtain ⟨w, hw⟩ : ∃ w, d.bytecode[i]? = some w :=
    ⟨_, List.getElem?_eq_getElem (hp.clears.length ▸ (List.getElem?_eq_some_iff.mp hi).1)⟩
  rcases hp.clears.word hw with heq | heq
  · cases hi.symm.trans heq
    exact hb w' (List.mem_of_getElem? hw)
  · cases hi.symm.trans heq
    rfl

/-- The number of words that a pass can still replace. -/
def remaining (code : List Word) : Nat := code.countP (· != 0#32)

theorem sweep_remaining : ∀ {code : List Word} {ra : RegisterAllocator},
    remaining (sweep ra code).1 ≤ remaining code ∧
      ((sweep ra code).2 = true → remaining (sweep ra code).1 < remaining code)
  | [], _ => by simp [sweep, remaining]
  | w :: code, ra => by
    rw [sweep]
    cases hremove : (opcode w).bind (removes w) with
    | none =>
      obtain ⟨hle, hlt⟩ := @sweep_remaining code ra
      unfold remaining at hle hlt ⊢
      refine ⟨?_, fun h => ?_⟩
      · simp only [List.countP_cons]
        omega
      · have := hlt h
        simp only [List.countP_cons]
        omega
    | some slot =>
      obtain ⟨hle, hlt⟩ := @sweep_remaining code (ra.check slot).2
      obtain ⟨op, hop, hslot⟩ := Option.bind_eq_some_iff.mp hremove
      have hne : (w != 0#32) = true := bne_iff_ne.mpr (removes_ne hop hslot)
      unfold remaining at hle hlt ⊢
      simp only
      by_cases hlive : (ra.check slot).1 = true
      · rw [if_pos hlive]
        refine ⟨?_, fun h => ?_⟩
        · simp only [List.countP_cons]
          omega
        · have := hlt h
          simp only [List.countP_cons]
          omega
      · rw [if_neg hlive]
        simp only [List.countP_cons, hne, if_true, bne_self_eq_false, Bool.false_eq_true, if_false]
        omega

theorem touchReads_isSome : ∀ {code : List Word} {ra : RegisterAllocator}, (∀ w ∈ code, ∃ op, opcode w = some op) →
    ∃ ra', touchReads ra code = some ra'
  | [], ra, _ => ⟨ra, rfl⟩
  | w :: code, ra, h => by
    obtain ⟨op, hop⟩ := h w (List.mem_cons_self ..)
    obtain ⟨ra', hra'⟩ := @touchReads_isSome code (touchAll ra (touches w op)) fun w' hw' =>
      h w' (List.mem_cons_of_mem _ hw')
    exact ⟨ra', by rw [touchReads, hop]; exact hra'⟩

/-- A pass over verified bytecode replaces only what is not live, and ends the loop unless it replaced a word. -/
theorem movoptPass_spec (hv : Verified d) : ∃ d' recur live, movoptPass d = some (d', recur) ∧ Passes d d' live ∧
    (recur = true → remaining d'.bytecode < remaining d.bytecode) := by
  obtain ⟨ra, hra⟩ := @touchReads_isSome d.bytecode (touchAll .init d.captured) fun w hw => by
    obtain ⟨i, hi⟩ := List.getElem?_of_mem hw
    exact exists_opcode (hv.instructions i w hi)
  obtain ⟨_, hreads⟩ := @used_touchReads 0 _ _ _ hra
  refine ⟨_, _, ra.used, by rw [movoptPass, hra]; rfl, ⟨sweep_replaces fun _ => rfl, fun s hs => ?_, fun w hw => ?_, rfl⟩,
    sweep_remaining.2⟩
  · exact (used_touchReads hra).1 (used_touchAll.mpr (Or.inl hs))
  · obtain ⟨op, hop, _⟩ := hreads w hw
    refine ⟨op, hop, fun s hs => ?_⟩
    obtain ⟨op', hop', htouched⟩ := (used_touchReads hra).2 w hw
    cases hop.symm.trans hop'
    exact htouched hs

/-- Passes one after the other. -/
inductive PassesTo : FuncDef → FuncDef → Prop
  | one {d d' : FuncDef} {live : Nat → Bool} (h : Passes d d' live) : PassesTo d d'
  | more {d d' m : FuncDef} {live : Nat → Bool} (h : Passes d d' live) (hrest : PassesTo d' m) : PassesTo d m

theorem movoptFor_spec : ∀ {n : Nat} {d : FuncDef}, Verified d → remaining d.bytecode < n →
    ∃ m, movoptFor n d = some m ∧ PassesTo d m
  | 0, _, _, h => absurd h (Nat.not_lt_zero _)
  | n + 1, d, hv, h => by
    obtain ⟨d', recur, live, hpass, hp, hless⟩ := movoptPass_spec hv
    cases recur with
    | false => exact ⟨d', by rw [movoptFor, hpass]; rfl, .one hp⟩
    | true =>
      have hless' := hless rfl
      obtain ⟨m, hm, hrest⟩ := movoptFor_spec (hp.verified hv) (by omega : remaining d'.bytecode < n)
      exact ⟨m, by rw [movoptFor, hpass]; exact hm, .more hp hrest⟩

/-- **The loop ends**: it makes at most one pass for each instruction, and one more. -/
theorem movopt_spec (hv : Verified d) : ∃ m, movopt d = some m ∧ PassesTo d m :=
  movoptFor_spec hv (Nat.lt_succ_of_le List.countP_le_length)

theorem PassesTo.clears (h : PassesTo d m) : Clears d m := by
  induction h with
  | one hp => exact hp.clears
  | more hp _ ih => exact hp.clears.trans ih

theorem PassesTo.verified (h : PassesTo d m) (hv : Verified d) : Verified m := by
  induction h with
  | one hp => exact hp.verified hv
  | more hp _ ih => exact ih (hp.verified hv)

theorem PassesTo.unbroken (h : PassesTo d m) (hb : d.Unbroken) : m.Unbroken := by
  induction h with
  | one hp => exact hp.unbroken hb
  | more hp _ ih => exact ih (hp.unbroken hb)

theorem Exit.Alike.trans (hrest : rest.Forgets alike drops) {o o' o'' : Exit W} (h : o.Alike alike o')
    (h' : o'.Alike alike o'') : o.Alike alike o'' := by
  cases h with
  | returned hw =>
    cases h' with
    | returned hw' => exact .returned (hrest.trans hw hw')
  | left hw =>
    cases h' with
    | left hw' => exact .left (hrest.trans hw hw')
  | fault => exact h'

/-- **The passes leave what the function does**, unless it fails at an instruction that is replaced. -/
theorem PassesTo.follows (h : PassesTo d m) (hv : Verified d) (hb : d.Unbroken) (hrest : rest.Forgets alike drops)
    (hdrops : ∀ op, Drops d m op → drops op) (hf : f.Inside d) : Turn.Follows (Frame.step d rest self) (Frame.step m rest self) (fun u v => v.pc = u.pc)
      (Exit.Alike alike) (fun u => d.bytecode[u.pc]? ≠ m.bytecode[u.pc]?) f f := by
  induction h with
  | @one d d' live hp =>
    have hsim := (@simulates_pass W alike d d' rest drops self live hp hv hb hrest hdrops).follows
      ⟨hf, rfl, rfl, fun _ _ => rfl, hrest.refl _⟩
    exact hsim.imp (fun hr => hr.2.pc) id id
  | @more d d' m live hp hps ih =>
    have hdrops' := fun op => @Clears.dropped d d' m op hp.clears hps.clears
    have hsim := (@simulates_pass W alike d d' rest drops self live hp hv hb hrest fun op h =>
      hdrops op ((hdrops' op).1 h)).follows ⟨hf, rfl, rfl, fun _ _ => rfl, hrest.refl _⟩
    have hf' : f.Inside d' := by
      refine ⟨hp.clears.length ▸ hf.pc, ?_⟩
      rw [hp.others]
      exact hf.slots
    have hchanged := fun i => @Clears.changed d d' m i hp.clears hps.clears
    refine hsim.trans (ih (hp.verified hv) (hp.unbroken hb) (fun op h => hdrops op ((hdrops' op).2 h)) hf') (fun hr hr' => hr'.trans hr.2.pc)
      (fun hq hq' => hq.trans hrest hq') (fun hbad => (hchanged _).1 hbad) fun hr hbad => ?_
    rw [hr.2.pc] at hbad
    exact (hchanged _).2 hbad

end Loop

end SwiftJanet.Bytecode
