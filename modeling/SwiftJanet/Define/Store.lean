import SwiftJanet.Copy.Region
import SwiftJanet.Copy.RoundTrip
import SwiftJanet.Define.Environment
import SwiftJanet.Define.Names
import SwiftJanet.Lib.Machine

/-!
# The store of bindings

Runs of `JanetVM.define` and `JanetVM.reset`, with a record of the definitions since the last reset.

- `store`: the machine of these calls; a definition that throws leaves what it has allocated;
- `StoreLaw`: names have what they were defined as last, or what a fresh environment has, and no two definitions share
  a container;
- `storeLaw_visits`: it holds in all states of a run whose definitions are `Plain`.
-/

namespace SwiftJanet

open Lib JanetValue

/-! ## Reachable containers -/

section Contains

variable [CanonicalForm]

/-- The container can be reached from the raw value. -/
def Heap.Contains (heap : Heap) (raw : Janet) (c : Container) : Prop :=
  ∃ k r, heap.Reaches k raw r ∧ c.IsAt r

variable {before heap heap' : Heap} {raw : Janet} {c : Container} {n k p : Nat} {r : Janet}

/-- What is reached from a region lies in it, and was reached before a change of an older table. -/
theorem Heap.Region.reach (h : before.Region heap n raw) (hx : heap.Extends p heap') (hp : p < before.tables.next)
    (hr : Reach heap'.view k raw r) : Reach heap.view k raw r ∧ ∃ m, before.Region heap m r := by
  induction hr generalizing n with
  | here => exact ⟨.here, n, h⟩
  | @down k raw u r hkid _ ih =>
    obtain ⟨_, _, _, _, hv, hu⟩ := hkid
    obtain ⟨c, hc, _, _, rfl, _⟩ := view_eq_node hv
    cases h with
    | flat h =>
      rw [(pointedAt_of_isAt heap hc).2] at h
      cases h
    | node hc' hs _ hk =>
      obtain rfl := isAt_unique hc hc'
      rw [(hs.children_eq hx hp).1] at hu
      obtain ⟨hreach, hregion⟩ := ih (hk u hu)
      exact ⟨.down ((kid_node (view_of_isAt heap hc)).mpr hu) hreach, hregion⟩

theorem Heap.Region.contains (h : before.Region heap n raw) (hx : heap.Extends p heap') (hp : p < before.tables.next)
    (hr : heap'.Contains raw c) : heap.Contains raw c ∧ before.Since heap c := by
  obtain ⟨k, r, hreach, hc⟩ := hr
  obtain ⟨hreach, m, hregion⟩ := h.reach hx hp hreach
  refine ⟨⟨k, r, hreach, hc⟩, ?_⟩
  cases hregion with
  | flat h =>
    rw [(pointedAt_of_isAt heap hc).2] at h
    cases h
  | node hc' hs _ _ =>
    obtain rfl := isAt_unique hc hc'
    exact hs

omit [CanonicalForm] in
/-- No container is made twice. -/
theorem Heap.Since.not_since {base : Heap} (h : before.Since heap c) (h' : heap.Since base c) : False := by
  cases c with
  | tuple q | array q | struct q | table q => exact absurd h.2 (Nat.not_lt_of_le h'.1)

end Contains

/-! ## Calls -/

section Store

variable [CanonicalForm]

/-- A call of `define`: the name has no NUL, nothing in the value is unsupported, and the keys of its dictionaries are
distinct, as Swift keeps them. -/
structure Definition where
  name : Text
  value : JanetValue
  documentation : Option Text
  nul_free : 0 ∉ name.utf8
  supported : All Supported value
  lawful : Lawful value

/-- The calls that change the store. -/
inductive StoreCall where
  | define (d : Definition)
  | reset

/-- A VM, with the definitions since the last reset and the raw values they made, the last one first. -/
structure Session where
  heap : Heap
  env : Nat
  defined : List (Definition × Janet)

/-- `JanetVM.define` and `JanetVM.reset`; a call that traps ends the process. -/
def storeStep (hashing : Heap → Hashing) (core : Heap × Nat) (s : Session) : StoreCall → Option Session
  | .define d =>
    match define (vmDictionaries hashing) s.env d.name d.value d.documentation s.heap with
    | (.returns (), heap) =>
      match (makeRaw (vmDictionaries hashing) d.value 0 s.heap).1 with
      | .returns raw => some ⟨heap, s.env, (d, raw) :: s.defined⟩
      | _ => none
    | (.throws _, heap) => some ⟨heap, s.env, s.defined⟩
    | _ => none
  | .reset => some ⟨core.1, core.2, []⟩

/-- The machine of these calls: `core` is what `janet_init` and `janet_core_env` give. -/
def store (hashing : Heap → Hashing) (core : Heap × Nat) : Machine Session StoreCall where
  start s := s = ⟨core.1, core.2, []⟩
  step := storeStep hashing core

theorem store_define {hashing : Heap → Hashing} {core : Heap × Nat} {s : Session} {d : Definition} {heap : Heap} {raw : Janet}
    (hrun : define (vmDictionaries hashing) s.env d.name d.value d.documentation s.heap = (.returns (), heap))
    (hmade : (makeRaw (vmDictionaries hashing) d.value 0 s.heap).1 = .returns raw) :
    (store hashing core).step s (.define d) = some ⟨heap, s.env, (d, raw) :: s.defined⟩ := by
  simp only [store, storeStep, hrun, hmade]

/-- The last definition of the name. -/
def Session.last (s : Session) (name : List UInt8) : Option (Definition × Janet) :=
  s.defined.find? fun d => d.1.name.utf8 == name

/-- No number is a NaN, and no dictionary has nil for a key or a value. -/
def RoundTrips : JanetValue → Prop
  | .number d => d.isNaN = false
  | .struct es | .table es => ∀ e ∈ es, e.1 ≠ .nil ∧ e.2 ≠ .nil
  | _ => True

/-- **The law of the store.** -/
structure StoreLaw (hashing : Heap → Hashing) (core : Heap × Nat) (s : Session) : Prop where
  /-- A name has the value of its last definition, if that survives a round trip. -/
  last : ∀ name d raw, s.last name = some (d, raw) → All RoundTrips d.value →
    (s.heap.janetResolveExt hashing s.env name).type = .bindingDef ∧
      ∃ u, copyOut s.heap (s.heap.janetResolveExt hashing s.env name).value = .returns u ∧ equal u d.value = true
  /-- Any other name has the binding of a fresh environment, whose objects are all as they were. -/
  core : ∀ name, s.last name = none →
    s.heap.binding hashing s.env name = core.1.binding hashing core.2 name ∧ core.1.Keeps core.2 s.heap
  /-- A definition that throws changes no object and no binding. -/
  thrown : ∀ (d : Definition) e heap,
    define (vmDictionaries hashing) s.env d.name d.value d.documentation s.heap = (.throws e, heap) →
      s.heap.Keeps 0 heap ∧ ∀ name, heap.binding hashing s.env name = s.heap.binding hashing s.env name
  /-- Two definitions have no container in common. -/
  apart : s.defined.Pairwise fun d d' => ∀ c, s.heap.Contains d.2 c → ¬s.heap.Contains d'.2 c

/-- The name has a length in 32 bits, no number is a NaN with the bits of a pointer to a container, and every struct has
fewer than `2 ^ 30` entries. -/
structure Definition.Plain (d : Definition) : Prop where
  name : d.name.utf8.length < 2 ^ 31
  flat : All Flat d.value
  small : All SmallStruct d.value

/-- The condition on a call. -/
def StoreCall.Plain : StoreCall → Prop
  | .define d => d.Plain
  | .reset => True

/-! ## The invariant -/

/-- The raw value of a definition lies in a region of its own, away from the environment, and represents the value. -/
def Stands (hashing : Heap → Hashing) (heap : Heap) (env : Nat) (d : Definition × Janet) : Prop :=
  ∃ (before : Heap) (n : Nat), env < before.tables.next ∧ before.Region heap n d.2 ∧ (All RoundTrips d.1.value →
    Represents (roomyDictionaries hashing) heap before.tables.next d.1.value d.2 ∧ d.1.value.depth ≤ maxValueNestingDepth)

/-- No container can be reached from two of the raw values. -/
def Apart (heap : Heap) (ds : List (Definition × Janet)) : Prop :=
  ds.Pairwise fun d d' => ∀ c, heap.Contains d.2 c → ¬heap.Contains d'.2 c

structure StoreInv (hashing : Heap → Hashing) (K : Heap → Janet → Prop) (core : Heap × Nat) (S : Nat → Prop)
    (s : Session) : Prop where
  environment : s.heap.Environment hashing K s.env S
  env : s.env = core.2
  keeps : core.1.Keeps core.2 s.heap
  stands : ∀ d ∈ s.defined, Stands hashing s.heap s.env d
  bound : ∀ name d, s.last name = some d → ∃ e, e ≠ s.env ∧
    s.heap.binding hashing s.env name = janetWrapTable e ∧ s.heap.Entry hashing e d.2
  unbound : ∀ name, s.last name = none → s.heap.binding hashing s.env name = core.1.binding hashing core.2 name
  apart : Apart s.heap s.defined

section Invariant

variable {hashing : Heap → Hashing} {K : Heap → Janet → Prop} {core : Heap × Nat} {S : Nat → Prop} {s t : Session}
  {heap heap' : Heap} {env : Nat} {d : Definition} {raw : Janet} {ds : List (Definition × Janet)} {v : JanetValue}

theorem Stands.frame {d : Definition × Janet} (h : Stands hashing heap env d) (hk : heap.Keeps env heap') :
    Stands hashing heap' env d := by
  obtain ⟨before, n, henv, hregion, hrep⟩ := h
  refine ⟨before, n, henv, hregion.frame hk.toExtends henv, fun hround => ?_⟩
  obtain ⟨hrep, hdepth⟩ := hrep hround
  exact ⟨hrep.frame hk.toExtends henv, hdepth⟩

theorem Apart.frame (h : Apart heap ds) (hs : ∀ d ∈ ds, Stands hashing heap env d) (hk : heap.Keeps env heap') :
    Apart heap' ds := by
  refine List.Pairwise.imp_of_mem (fun {d d'} hd hd' hapart c hc hc' => ?_) h
  obtain ⟨before, n, henv, hregion, _⟩ := hs d hd
  obtain ⟨before', n', henv', hregion', _⟩ := hs d' hd'
  exact hapart c (hregion.contains hk.toExtends henv hc).1 (hregion'.contains hk.toExtends henv' hc').1

theorem storeInv_core (he : core.1.Environment hashing K core.2 S) : StoreInv hashing K core S ⟨core.1, core.2, []⟩ where
  environment := he
  env := rfl
  keeps := .refl
  stands _ hd := absurd hd List.not_mem_nil
  bound _ _ h := (nomatch h)
  unbound _ _ := rfl
  apart := List.Pairwise.nil

/-- What only adds to the heap keeps the invariant. -/
theorem storeInv_keeps (hl : KeyLaws hashing K) (h : StoreInv hashing K core S s) (hk : s.heap.Keeps 0 heap) :
    StoreInv hashing K core S ⟨heap, s.env, s.defined⟩ where
  environment := h.environment.frame hl hk
  env := h.env
  keeps := h.keeps.trans hk.weaken
  stands d hd := (h.stands d hd).frame hk.weaken
  bound name d hd := by
    obtain ⟨e, hne, hbind, hentry⟩ := h.bound name d hd
    refine ⟨e, hne, ?_, hentry.frame hl.toNameLaws hk (Nat.ne_of_gt hentry.pos)⟩
    rw [h.environment.binding_frame hl hk, hbind]
  unbound name hn := by
    rw [h.environment.binding_frame hl hk]
    exact h.unbound name hn
  apart := h.apart.frame h.stands hk.weaken

/-- A value that survives a round trip crosses when its sizes fit and nothing in it is unsupported. -/
theorem crosses_of_roundTrips (hl : Lawful v) (hr : All RoundTrips v) (hz : All Sized v) (hu : All Supported v) :
    Crosses (2 ^ 31 - 1) v := by
  induction v using partsInduction with
  | h v ih =>
    have hround := hr.here
    have hsized := hz.here
    refine Crosses.intro hl.here ?_ ?_ fun w hw => ih w hw (hl.part hw) (hr.part hw) (hz.part hw) (hu.part hw)
    · cases v with
      | number d => exact hround
      | _ => trivial
    · cases v with
      | struct es | table es => exact ⟨Nat.le_sub_one_of_lt hsized, hround⟩
      | unsupported name => exact hu.here
      | string t | keyword t | symbol t => exact hsized
      | tuple xs | array xs => exact hsized
      | _ => trivial

/-- **A definition stands** once it has returned. -/
theorem stands_of_makeRaw (hlaws : TellsApart hashing) (henv : env < heap.tables.next) (hd : d.Plain)
    (hraw : makeRaw (vmDictionaries hashing) d.value 0 heap = (.returns raw, heap')) :
    Stands hashing heap' env (d, raw) := by
  have hpass : Passes d.value 0 := passes_of_returns (Nat.zero_le _) hraw
  refine ⟨heap, d.value.depth, henv, makeRaw_region d.value hd.flat hraw, fun hround => ⟨?_, hpass.depth⟩⟩
  have hcross := crosses_of_roundTrips d.lawful hround hpass.sized hpass.supported
  obtain ⟨raw', heap'', hmake, _, hrep⟩ :=
    makes_of_crosses (roomyDictionaries_laws hlaws) (by decide) hcross 0 heap hpass.depth
  rw [makeRaw_roomy d.value 0 hd.small, hraw] at hmake
  cases hmake
  exact hrep

/-- **A definition keeps the invariant.** -/
theorem storeInv_defined (hlaws : TellsApart hashing) (hl : KeyLaws hashing K) (h : StoreInv hashing K core S s)
    (hd : d.Plain)
    (hrun : define (vmDictionaries hashing) s.env d.name d.value d.documentation s.heap = (.returns (), heap))
    (hmade : (makeRaw (vmDictionaries hashing) d.value 0 s.heap).1 = .returns raw) :
    StoreInv hashing K core S ⟨heap, s.env, (d, raw) :: s.defined⟩ := by
  obtain ⟨raw', heap₁, e, bytes, hraw, hbytes, hle, hentry, he, hk, hk₁, hnew, hothers⟩ := define_spec hl h.environment hrun
  rw [hraw] at hmade
  cases hmade
  obtain rfl : d.name.utf8 = bytes := Option.some.inj ((cBytes_cString d.nul_free hd.name).symm.trans hbytes)
  have henv : s.env < s.heap.tables.next := h.environment.lt h.environment.root
  have hx : s.heap.Extends 0 heap₁ := extends_of_makeRaw hraw
  have hne : e ≠ s.env := by
    have := hx.tables.next_le
    omega
  have hlast : ∀ name, Session.last ⟨heap, s.env, (d, raw) :: s.defined⟩ name =
      if d.name.utf8 = name then some (d, raw) else s.last name := by
    intro name
    simp only [Session.last, List.find?_cons]
    by_cases hname : d.name.utf8 = name
    · rw [beq_iff_eq.mpr hname, if_pos hname]
    · rw [beq_eq_false_iff_ne.mpr hname, if_neg hname]
  refine ⟨he, h.env, h.env ▸ h.keeps.trans (h.env ▸ hk), fun d' hd' => ?_, fun name d' hlast' => ?_, fun name hnone => ?_,
    List.pairwise_cons.mpr ⟨fun d' hd' c hc hc' => ?_, h.apart.frame h.stands hk⟩⟩
  · rcases List.mem_cons.mp hd' with rfl | hold
    · exact (stands_of_makeRaw hlaws henv hd hraw).frame hk₁
    · exact (h.stands d' hold).frame hk
  · rw [hlast] at hlast'
    split at hlast'
    · next hname =>
      cases hlast'
      exact ⟨e, hne, hname ▸ hnew, hentry⟩
    · next hname =>
      obtain ⟨e', hne', hbind, hentry'⟩ := h.bound name d' hlast'
      exact ⟨e', hne', (hothers name (Ne.symm hname)).trans hbind, hentry'.frame hl.toNameLaws hk hne'⟩
  · rw [hlast] at hnone
    split at hnone
    · cases hnone
    · next hname => exact (hothers name (Ne.symm hname)).trans (h.unbound name hnone)
  · -- the new containers come after all that were there
    have hsince := ((makeRaw_region d.value hd.flat hraw).contains hk₁.toExtends henv hc).2
    obtain ⟨before, n, henv', hregion, _⟩ := h.stands d' hd'
    exact (hregion.contains hk.toExtends henv' hc').2.not_since hsince

/-- One call. -/
theorem storeInv_step (hlaws : TellsApart hashing) (hl : KeyLaws hashing K) (he : core.1.Environment hashing K core.2 S)
    (h : StoreInv hashing K core S s) {call : StoreCall} (hstep : (store hashing core).step s call = some t)
    (hplain : call.Plain) : StoreInv hashing K core S t := by
  cases call with
  | reset =>
    cases hstep
    exact storeInv_core he
  | define d =>
    simp only [store, storeStep] at hstep
    rcases hrun : define (vmDictionaries hashing) s.env d.name d.value d.documentation s.heap with ⟨⟨⟨⟩⟩ | e | _ | _, heap⟩
    · rw [hrun] at hstep
      cases hmade : (makeRaw (vmDictionaries hashing) d.value 0 s.heap).1 with
      | returns raw =>
        rw [hmade] at hstep
        cases hstep
        exact storeInv_defined hlaws hl h hplain hrun hmade
      | _ =>
        rw [hmade] at hstep
        cases hstep
    · rw [hrun] at hstep
      cases hstep
      exact storeInv_keeps hl h (define_throws hrun).2
    all_goals
      rw [hrun] at hstep
      cases hstep

omit [CanonicalForm] in
/-- What is represented is stored as it is. -/
theorem Represents.storedValue {code : DictionaryCode} {lo : Nat} (h : Represents code heap lo v raw) :
    storedValue raw = raw := by
  by_cases hv : v = .nil
  · subst hv
    cases h with
    | leaf h =>
      cases h
      rfl
    | container hk => exact absurd (isLeaf_of_isKindOf hk) (by decide)
  · rw [SwiftJanet.storedValue, h.checktype_nil hv]
    rfl

/-- **The law holds behind the invariant.** -/
theorem storeLaw_of_inv (hl : KeyLaws hashing K) (h : StoreInv hashing K core S s) : StoreLaw hashing core s where
  last name d raw hlast hround := by
    obtain ⟨e, _, hbind, hentry⟩ := h.bound name _ hlast
    obtain ⟨before, n, _, _, hrep⟩ := h.stands _ (List.mem_of_find?_eq_some hlast)
    obtain ⟨hrep, hdepth⟩ := hrep hround
    obtain ⟨hwithin, u, hu, huv⟩ := hrep.unfolds d.lawful
    rw [hentry.resolve hl.toNameLaws hbind, hrep.storedValue]
    exact ⟨rfl, u, copyOut_of_within hwithin hdepth hu, huv⟩
  core name hnone := ⟨h.unbound name hnone, h.keeps⟩
  thrown d e heap hthrow := by
    obtain ⟨_, hk⟩ := define_throws hthrow
    exact ⟨hk, h.environment.binding_frame hl hk⟩
  apart := h.apart

/-- **The store law**: it holds in every state of a run whose definitions are plain. -/
theorem storeLaw_visits (hlaws : TellsApart hashing) (hl : KeyLaws hashing K)
    (he : core.1.Environment hashing K core.2 S) (calls : List StoreCall)
    (hcalls : (store hashing core).Makes (fun _ call => call.Plain) ⟨core.1, core.2, []⟩ calls) :
    (store hashing core).Visits (StoreLaw hashing core) ⟨core.1, core.2, []⟩ calls :=
  Machine.visits_of_makes (fun _ h => storeLaw_of_inv hl h)
    (fun _ _ _ h hstep hplain => storeInv_step hlaws hl he h hstep hplain) calls _ (storeInv_core he) hcalls

end Invariant

end Store

/-! ## A NaN that points to another definition's array -/

section Bytewise

/-- Strings that are compared by their bytes. -/
local instance bytewise : CanonicalForm := ⟨id⟩

/-- `define("a", .array([]))`. -/
def emptyArray : Definition where
  name := "a".toList
  value := .array []
  documentation := none
  nul_free := by decide
  supported := .intro trivial fun _ h => absurd h List.not_mem_nil
  lawful := .intro trivial fun _ h => absurd h List.not_mem_nil

/-- `define("b", .number(x))`, for the NaN with the bits of a pointer to the array at address 1. -/
def pointingNumber : Definition where
  name := "b".toList
  value := .number ⟨0xFFFB800000000001#64⟩
  documentation := none
  nul_free := by decide
  supported := .intro trivial fun _ h => absurd h List.not_mem_nil
  lawful := .intro trivial fun _ h => absurd h List.not_mem_nil

/-- `define("t", nested)`. -/
def nestedDefinition : Definition where
  name := "t".toList
  value := nestedTable
  documentation := some "a table".toList
  nul_free := by decide
  supported := passes_nestedTable.supported
  lawful := lawful_nestedTable

/-- Arrays in one another. -/
def nestedArrays : Nat → JanetValue
  | 0 => .array []
  | n + 1 => .array [nestedArrays n]

theorem all_nestedArrays {p : JanetValue → Prop} (h : ∀ xs, p (.array xs)) : ∀ n, All p (nestedArrays n)
  | 0 => .intro (h _) fun _ hw => absurd hw List.not_mem_nil
  | n + 1 => .intro (h _) fun w hw => by
    obtain rfl := List.mem_singleton.mp hw
    exact all_nestedArrays h n

theorem depth_nestedArrays : ∀ n, (nestedArrays n).depth = n + 1
  | 0 => rfl
  | n + 1 => by
    show max (nestedArrays n).depth 0 + 1 = _
    rw [depth_nestedArrays n, Nat.max_zero]

/-- `define("a", deep)`, one array more than the limit. -/
def deepDefinition : Definition where
  name := "a".toList
  value := nestedArrays maxValueNestingDepth
  documentation := none
  nul_free := by decide
  supported := all_nestedArrays (fun _ => trivial) _
  lawful := all_nestedArrays (fun _ => trivial) _

/-- The heap with an empty table, as an environment. -/
def emptyCore : Heap × Nat := (heapWithTable, 1)

/-- Two names, one of them defined twice, and a definition that throws. -/
theorem storeLaw_visits_nested : maxValueNestingDepth < deepDefinition.value.depth ∧
    (store plainHashing emptyCore).Visits (StoreLaw plainHashing emptyCore) ⟨emptyCore.1, emptyCore.2, []⟩
      [.define nestedDefinition, .define emptyArray, .define deepDefinition, .define nestedDefinition, .reset,
        .define emptyArray] := by
  have hnested : nestedDefinition.Plain := by
    refine ⟨by decide, all_nestedTable ?_ trivial trivial trivial trivial trivial trivial trivial, small_nestedTable⟩
    exact (by decide : Container.pointedAt (janetWrapNumber ⟨0x3FF0000000000000#64⟩) = none)
  have hempty : emptyArray.Plain :=
    ⟨by decide, .intro trivial fun _ h => absurd h List.not_mem_nil, .intro trivial fun _ h => absurd h List.not_mem_nil⟩
  have hdeep : deepDefinition.Plain :=
    ⟨by decide, all_nestedArrays (fun _ => trivial) _, all_nestedArrays (fun _ => trivial) _⟩
  refine ⟨by rw [deepDefinition, depth_nestedArrays]; exact Nat.lt_succ_self _, ?_⟩
  refine storeLaw_visits plainHashing_tellsApart plainHashing_laws (heapWithTable_environment _ _) _ ?_
  exact fun _ _ => ⟨hnested, fun _ _ => ⟨hempty, fun _ _ => ⟨hdeep, fun _ _ => ⟨hnested, fun _ _ => ⟨trivial,
    fun _ _ => ⟨hempty, trivial⟩⟩⟩⟩⟩⟩

/-- The number reaches the array of the other definition. -/
theorem not_storeLaw_visits_pointer : ¬(store plainHashing emptyCore).Visits (StoreLaw plainHashing emptyCore)
    ⟨emptyCore.1, emptyCore.2, []⟩ [.define emptyArray, .define pointingNumber] := by
  intro h
  let heap₁ := (define (vmDictionaries plainHashing) 1 "a".toList (.array []) none heapWithTable).2
  have hrun₁ : define (vmDictionaries plainHashing) 1 "a".toList (.array []) none heapWithTable = (.returns (), heap₁) :=
    Prod.ext (by decide +kernel) rfl
  let heap₂ := (define (vmDictionaries plainHashing) 1 "b".toList (.number ⟨0xFFFB800000000001#64⟩) none heap₁).2
  have hrun₂ : define (vmDictionaries plainHashing) 1 "b".toList (.number ⟨0xFFFB800000000001#64⟩) none heap₁ =
      (.returns (), heap₂) := Prod.ext (by decide +kernel) rfl
  have hmade₁ : (makeRaw (vmDictionaries plainHashing) (.array []) 0 heapWithTable).1 = .returns (janetWrapArray 1) := rfl
  have hmade₂ : (makeRaw (vmDictionaries plainHashing) (.number ⟨0xFFFB800000000001#64⟩) 0 heap₁).1 =
      .returns (janetWrapNumber ⟨0xFFFB800000000001#64⟩) := rfl
  have hlaw := (h.2 _ (store_define hrun₁ hmade₁)).2 _ (store_define hrun₂ hmade₂)
  have hapart := (List.pairwise_cons.mp hlaw.apart).1 (emptyArray, janetWrapArray 1) (List.mem_singleton.mpr rfl)
  refine hapart (.array 1) ⟨0, _, .here, ?_⟩ ⟨0, _, .here, rfl, rfl⟩
  exact ⟨by decide, by decide⟩

end Bytewise

end SwiftJanet
