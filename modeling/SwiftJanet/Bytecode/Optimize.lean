import SwiftJanet.Bytecode.Movopt
import SwiftJanet.Bytecode.RemoveNoops

/-!
# The optimisation of a function

`optimize`: the two passes that `janetc_pop_funcdef` makes over a function when it is done.

- without the instructions that do nothing the function does exactly what it did (`removeNoops_preserves`);
- after both passes it passes the same check, and ends as it did, unless it failed at an instruction that was replaced
  (`optimize_preserves`).
-/

namespace SwiftJanet.Bytecode

open Lib

/-- The last lines of `janetc_pop_funcdef`. -/
def optimize (d : FuncDef) : Option FuncDef := do removeNoops (← movopt d)

/-! ## Two functions -/

/-- `(fn [x] (if x (let [[a b] x] b)))`, as it is before the passes. -/
def second : FuncDef where
  bytecode := [0x0003001E#32, 0x0000013D#32, 0x0100023D#32, 0x00000203#32]
  sourcemap := some [⟨1, 9⟩, ⟨1, 15⟩, ⟨1, 15⟩, ⟨1, 9⟩]
  symbolmap := [⟨0#32, 4#32, 0#32, true⟩, ⟨1#32, 3#32, 1#32, true⟩, ⟨2#32, 3#32, 2#32, true⟩]
  closureBitset := none
  constants := []
  slotcount := 3
  arity := 1
  vararg := false
  environmentsLength := 0
  defsLength := 0

/-- The function after the first pass. -/
def emptied : FuncDef := { second with bytecode := [0x0003001E#32, 0#32, 0x0100023D#32, 0x00000203#32] }

/-- Elements are their indices, and closures lie where memory ends; it is counted how much there is. -/
def counting : Rest Nat where
  perform
    | .getIndex, is, _, xs, n => .value (janetWrapInteger (is.getD 0 0)) xs n
    | .closure, _, _, xs, n => .value (.box .function n) xs (n + 1)
    | _, _, _, xs, n => .leaves 1 janetWrapNil xs n
  pause _ _ := .none
  panic _ n := (janetWrapNil, n)

theorem drops_second {op : Opcode} (h : Drops second emptied op) : op = .getIndex := by
  obtain ⟨i, w, hw, hne, hop⟩ := h
  match i with
  | 1 => cases hw; exact Option.some.inj hop.symm
  | 0 | 2 | 3 => exact absurd hw hne
  | n + 4 => cases hw

/-- An element that is taken out leaves everything as it was. -/
theorem forgets_counting : counting.Forgets (· = ·) (Drops second emptied) where
  refl _ := rfl
  trans h h' := h.trans h'
  perform {op immediates args xs w w'} h := by
    subst h
    cases hanswer : counting.perform op immediates args xs w with
    | value x xs w => exact .value rfl
    | leaves signal x xs w => exact .leaves rfl
  pause _ := .none
  panic h := ⟨rfl, h⟩
  forget hdrops h := by
    obtain rfl := drops_second hdrops
    cases h
    exact ⟨rfl, rfl⟩

theorem unbroken_second : second.Unbroken ∧ emptied.Unbroken :=
  ⟨fun w hw => by
    simp only [second, List.mem_cons, List.not_mem_nil, or_false] at hw
    rcases hw with rfl | rfl | rfl | rfl <;> rfl,
  fun w hw => by
    simp only [emptied, List.mem_cons, List.not_mem_nil, or_false] at hw
    rcases hw with rfl | rfl | rfl | rfl <;> rfl⟩

theorem symbolsEnd_second : second.SymbolsEnd := by
  intro jsm hjsm _
  simp only [second, List.mem_cons, List.not_mem_nil, or_false] at hjsm
  rcases hjsm with rfl | rfl | rfl <;> decide

/-! ## What the passes preserve -/

section Preserves

variable {d m : FuncDef}

/-- **Without the instructions that do nothing a function ends as it did**, with the same result in the same world. -/
theorem removeNoops_preserves (hv : janetVerify d = 0) (hb : d.Unbroken) (hs : d.SymbolsEnd) :
    ∃ d', removeNoops d = some d' ∧ janetVerify d' = 0 ∧ (∀ w ∈ d'.bytecode, isNoop w = false) ∧
      ∀ {W : Type} (rest : Rest W) (self : Janet) (slots : List Janet) (world : W) (o : Exit W),
        slots.length = d.slotcount → ((∃ u, Turn.Ends (Frame.step d rest self) ⟨0, slots, world⟩ u o) ↔
          ∃ v, Turn.Ends (Frame.step d' rest self) ⟨0, slots, world⟩ v o) := by
  have hv := janetVerify_eq_zero.mp hv
  obtain ⟨d', hremove, hv', hnoops⟩ := removeNoops_verified hv hs
  refine ⟨d', hremove, janetVerify_eq_zero.mpr hv', hnoops, fun rest self slots world o hslots => ?_⟩
  have hsim := @simulates_removeNoops _ _ _ rest self (removeNoops_spec hremove) hv hb
  have hstart : (⟨0, slots, world⟩ : Frame _) = Frame.packed d.bytecode ⟨0, slots, world⟩ := by
    rw [Frame.packed, newPc_zero]
  have hfollows := hsim.follows ⟨⟨hv.nonempty, hslots⟩, hstart⟩
  constructor
  · rintro ⟨u, hu⟩
    rcases hfollows.forward hu with ⟨v, o', hv, rfl, _⟩ | hbad
    · exact ⟨v, hv⟩
    · exact hbad.elim
  · rintro ⟨v, hv⟩
    obtain ⟨u, o', hu, ⟨rfl, _⟩ | hbad⟩ := hfollows.backward hv
    · exact ⟨u, hu⟩
    · exact hbad.elim

/-- An element that is not taken out any more. -/
theorem removeNoops_preserves_emptied : ∃ d', removeNoops emptied = some d' ∧ janetVerify d' = 0 ∧
    ∃ v, Turn.Ends (Frame.step d' counting janetWrapNil) ⟨0, [janetWrapTrue, janetWrapNil, janetWrapNil], 0⟩ v
      (.returned (janetWrapInteger 1) [] 0) := by
  obtain ⟨d', hremove, hv, _, hends⟩ := removeNoops_preserves (d := emptied) rfl unbroken_second.2 symbolsEnd_second
  exact ⟨d', hremove, hv, (hends counting janetWrapNil [janetWrapTrue, janetWrapNil, janetWrapNil] 0 _ rfl).mp
    ⟨⟨3, [janetWrapTrue, janetWrapNil, janetWrapInteger 1], 0⟩, .later rfl (.later rfl (.later rfl (.now rfl)))⟩⟩

/-- **After both passes a function ends as it did**, in a world that nothing can tell from the other one, unless it failed
at an instruction that the first pass replaced. What the rest of the VM does for the instructions that were dropped must
not be noticed: a VM that makes closures notices one that is dropped. -/
theorem optimize_preserves (hv : janetVerify d = 0) (hb : d.Unbroken) (hs : d.SymbolsEnd) :
    ∃ m d', movopt d = some m ∧ optimize d = some d' ∧ janetVerify d' = 0 ∧ (∀ w ∈ d'.bytecode, isNoop w = false) ∧
      ∀ {W : Type} (alike : W → W → Prop) (rest : Rest W) (self : Janet) (slots : List Janet) (world : W),
        rest.Forgets alike (Drops d m) → slots.length = d.slotcount →
          Turn.Follows (Frame.step d rest self) (Frame.step d' rest self) (fun u v => v.pc = newPc m.bytecode u.pc)
            (Exit.Alike alike) (fun u => d.bytecode[u.pc]? ≠ m.bytecode[u.pc]?) ⟨0, slots, world⟩ ⟨0, slots, world⟩ := by
  have hv := janetVerify_eq_zero.mp hv
  obtain ⟨m, hmovopt, hpasses⟩ := movopt_spec hv
  have hvm := hpasses.verified hv
  have hsm : m.SymbolsEnd := by
    rw [hpasses.clears.others]
    exact hs
  obtain ⟨d', hremove, hv', hnoops⟩ := removeNoops_verified hvm hsm
  refine ⟨m, d', hmovopt, by rw [optimize, hmovopt]; exact hremove, janetVerify_eq_zero.mpr hv', hnoops,
    fun alike rest self slots world hrest hslots => ?_⟩
  have hfollows := @PassesTo.follows _ _ _ _ rest _ self ⟨0, slots, world⟩ hpasses hv hb hrest (fun _ h => h) ⟨hv.nonempty, hslots⟩
  have hslots' : slots.length = m.slotcount := by
    rw [hpasses.clears.others]
    exact hslots
  have hsim := @simulates_removeNoops _ _ _ rest self (removeNoops_spec hremove) hvm (hpasses.unbroken hb)
  have hstart : (⟨0, slots, world⟩ : Frame _) = Frame.packed m.bytecode ⟨0, slots, world⟩ := by
    rw [Frame.packed, newPc_zero]
  have hfollows' := hsim.follows ⟨⟨hvm.nonempty, hslots'⟩, hstart⟩
  refine hfollows.trans hfollows' (fun {u v w} huv hvw => ?_) (fun hq hq' => hq' ▸ hq) id fun _ hbad => hbad.elim
  rw [hvw.2, Frame.packed, huv]

/-- The first of two elements is taken out for nothing: the function that does not take it returns the second as well. -/
theorem optimize_preserves_second : ∃ d', optimize second = some d' ∧ janetVerify d' = 0 ∧
    ∃ v, Turn.Ends (Frame.step d' counting janetWrapNil) ⟨0, [janetWrapTrue, janetWrapNil, janetWrapNil], 0⟩ v
      (.returned (janetWrapInteger 1) [] 0) := by
  obtain ⟨m, d', hm, hd', hv, _, hfollows⟩ := optimize_preserves (d := second) rfl unbroken_second.1 symbolsEnd_second
  cases (show movopt second = some emptied by decide).symm.trans hm
  have hruns : Turn.Ends (Frame.step second counting janetWrapNil) ⟨0, [janetWrapTrue, janetWrapNil, janetWrapNil], 0⟩
      ⟨3, [janetWrapTrue, janetWrapInteger 0, janetWrapInteger 1], 0⟩ (.returned (janetWrapInteger 1) [] 0) :=
    .later rfl (.later rfl (.later rfl (.now rfl)))
  rcases (hfollows _ counting janetWrapNil _ 0 forgets_counting rfl).forward hruns with ⟨v, o, ho, halike, _⟩ | hbad
  · cases halike with
    | returned hw => exact ⟨d', hd', hv, v, hw ▸ ho⟩
  · exact absurd rfl hbad

example : movopt second = some emptied := by decide

/-- An element that is not used may not be there: `(fn [x] (let [[a] x] x))` fails for what has no elements, and does not
fail any more after the passes. -/
example : let d : FuncDef := { second with bytecode := [0x0000013D#32, 0x00000003#32], symbolmap := [] }
    Turn.runFor (Frame.step d failing janetWrapNil) 1 ⟨0, [janetWrapTrue, janetWrapNil, janetWrapNil], ()⟩ =
        some (.left 1 janetWrapNil (some ⟨1, 9⟩) [] ()) ∧
      (optimize d).map FuncDef.bytecode = some [0x00000003#32] ∧
      Turn.runFor (Frame.step { d with bytecode := [0x00000003#32] } failing janetWrapNil) 1
        ⟨0, [janetWrapTrue, janetWrapNil, janetWrapNil], ()⟩ = some (.returned janetWrapTrue [] ()) := ⟨rfl, rfl, rfl⟩

end Preserves

end SwiftJanet.Bytecode
