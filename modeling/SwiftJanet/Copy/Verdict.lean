import SwiftJanet.Copy.Dictionaries
import SwiftJanet.Copy.Frame

/-!
# How making ends

`makeRaw` looks at a value from the top down and from left to right. A value `Passes` when it nests within the limit,
its sizes fit into 32 bits, and nothing in it is unsupported; otherwise making stops at the first place that does not
(`Stops`). `makeRaw_ends`: with the VM's dictionaries making returns or stops accordingly, in every heap, unless it puts
an entry into a struct without cells (`LacksCells`), where a put can leave the memory.

- `Comes v d w d'`: making `v` at depth `d` comes to `w` at depth `d'`, all that is made before being done;
- `StopsAt`: the places where making stops, with the reason.
-/

namespace SwiftJanet

open Lib JanetValue

/-! ## Where making stops -/

/-- Collections and strings fit into 32 bits. -/
def Sized : JanetValue → Prop
  | .string t | .keyword t | .symbol t => t.utf8.length < 2 ^ 31
  | .tuple xs | .array xs => xs.length < 2 ^ 31
  | .struct es | .table es => es.length < 2 ^ 31
  | _ => True

/-- The value is supported. -/
def Supported : JanetValue → Prop
  | .unsupported _ => False
  | _ => True

/-- Nothing stops the making of the value at this depth. -/
structure Passes (v : JanetValue) (depth : Nat) : Prop where
  depth : v.depth + depth ≤ maxValueNestingDepth
  sized : All Sized v
  supported : All Supported v

/-- Why making stops. -/
inductive Stop where
  | deep | overflow | unsupported
deriving DecidableEq, Repr

/-- What making comes to when it stops. -/
def Stop.outcome {α : Type} : Stop → Result α
  | .deep => .throws nestedDeeper
  | .overflow => .traps .overflow
  | .unsupported => .traps .precondition

/-- Making stops right at the value: the size of a dictionary is looked at before its entries, and that of a sequence
after its elements. -/
inductive StopsAt : JanetValue → Nat → Stop → Prop
  | deep {v : JanetValue} {d : Nat} (hc : v.isLeaf = false) (h : maxValueNestingDepth ≤ d) : StopsAt v d .deep
  | string {t : Text} {d : Nat} (h : 2 ^ 31 ≤ t.utf8.length) : StopsAt (.string t) d .overflow
  | keyword {t : Text} {d : Nat} (h : 2 ^ 31 ≤ t.utf8.length) : StopsAt (.keyword t) d .overflow
  | symbol {t : Text} {d : Nat} (h : 2 ^ 31 ≤ t.utf8.length) : StopsAt (.symbol t) d .overflow
  | tuple {xs : List JanetValue} {d : Nat} (hd : d < maxValueNestingDepth) (hp : ∀ x ∈ xs, Passes x (d + 1))
      (h : 2 ^ 31 ≤ xs.length) : StopsAt (.tuple xs) d .overflow
  | array {xs : List JanetValue} {d : Nat} (hd : d < maxValueNestingDepth) (hp : ∀ x ∈ xs, Passes x (d + 1))
      (h : 2 ^ 31 ≤ xs.length) : StopsAt (.array xs) d .overflow
  | struct {es : List (JanetValue × JanetValue)} {d : Nat} (hd : d < maxValueNestingDepth) (h : 2 ^ 31 ≤ es.length) :
      StopsAt (.struct es) d .overflow
  | table {es : List (JanetValue × JanetValue)} {d : Nat} (hd : d < maxValueNestingDepth) (h : 2 ^ 31 ≤ es.length) :
      StopsAt (.table es) d .overflow
  | unsupported {name : Text} {d : Nat} : StopsAt (.unsupported name) d .unsupported

/-- Making goes into the container. -/
def Enters : JanetValue → Nat → Prop
  | .tuple _, d | .array _, d => d < maxValueNestingDepth
  | .struct es, d | .table es, d => d < maxValueNestingDepth ∧ es.length < 2 ^ 31
  | _, _ => False

/-- Making `v` at depth `d` comes to `w` at depth `d'`. -/
inductive Comes : JanetValue → Nat → JanetValue → Nat → Prop
  | here {v : JanetValue} {d : Nat} : Comes v d v d
  | part {v u w : JanetValue} {d d' : Nat} {before after : List JanetValue} (he : Enters v d)
      (hp : v.parts = before ++ u :: after) (hb : ∀ x ∈ before, Passes x (d + 1)) (hc : Comes u (d + 1) w d') :
      Comes v d w d'

/-- Making `v` at depth `d` stops. -/
def Stops (v : JanetValue) (d : Nat) (s : Stop) : Prop := ∃ w d', Comes v d w d' ∧ StopsAt w d' s

/-- Making the entries at depth `inner` puts one that Janet stores, all that is made before being done. -/
def Puts (es : List (JanetValue × JanetValue)) (inner : Nat) : Prop :=
  ∃ before e after, es = before ++ e :: after ∧ (∀ f ∈ before ++ [e], Passes f.1 inner ∧ Passes f.2 inner) ∧ StoredEntry e

/-- Making `v` at depth `d` puts an entry into a struct that the VM has no cells for. -/
def LacksCells (v : JanetValue) (d : Nat) : Prop :=
  ∃ es d', Comes v d (.struct es) d' ∧ Enters (.struct es) d' ∧ 2 ^ 30 ≤ es.length ∧ Puts es (d' + 1)

/-- One of the values of a list is such, and making is done with those before it. -/
def FirstIn (q : JanetValue → Prop) (vs : List JanetValue) (inner : Nat) : Prop :=
  ∃ before u after, vs = before ++ u :: after ∧ (∀ x ∈ before, Passes x inner) ∧ q u

/-- Making the values of a list stops at one of them. -/
def StopsIn (vs : List JanetValue) (inner : Nat) (s : Stop) : Prop := FirstIn (Stops · inner s) vs inner

/-- Making the values of a list puts an entry into a struct without cells. -/
def LacksCellsIn (vs : List JanetValue) (inner : Nat) : Prop := FirstIn (LacksCells · inner) vs inner

section Stops

variable {v : JanetValue} {vs : List JanetValue} {d inner : Nat} {s : Stop} {q : JanetValue → Prop}

theorem Stops.here (h : StopsAt v d s) : Stops v d s := ⟨v, d, .here, h⟩

theorem Stops.below (he : Enters v d) (h : StopsIn v.parts (d + 1) s) : Stops v d s := by
  obtain ⟨before, u, after, hp, hb, w, d', hc, hs⟩ := h
  exact ⟨w, d', .part he hp hb hc, hs⟩

theorem LacksCells.below (he : Enters v d) (h : LacksCellsIn v.parts (d + 1)) : LacksCells v d := by
  obtain ⟨before, u, after, hp, hb, es, d', hc, hs⟩ := h
  exact ⟨es, d', .part he hp hb hc, hs⟩

theorem FirstIn.head (h : q v) : FirstIn q (v :: vs) inner := ⟨[], v, vs, rfl, by simp, h⟩

theorem FirstIn.tail (hv : Passes v inner) (h : FirstIn q vs inner) : FirstIn q (v :: vs) inner := by
  obtain ⟨before, u, after, rfl, hb, hs⟩ := h
  refine ⟨v :: before, u, after, rfl, fun x hx => ?_, hs⟩
  rcases List.mem_cons.mp hx with rfl | hx
  · exact hv
  · exact hb x hx

end Stops

/-! ## Endings -/

/-- The outcome is the one of a call that returns under the condition `p`, stops as `q` says, and can leave the memory
under the condition `r`. -/
inductive Ends {α : Type} (p : Prop) (q : Stop → Prop) (r : Prop) : Result α → Prop
  | returns (hp : p) (a : α) : Ends p q r (.returns a)
  | stops {s : Stop} (hs : q s) : Ends p q r s.outcome
  | leaves (hr : r) : Ends p q r (.traps .memory)

/-- The outcome is the one of making a list of values, with puts that can leave the memory under the condition `r`. -/
def EndsIn {α : Type} (vs : List JanetValue) (inner : Nat) (r : Prop) (o : Result α) : Prop :=
  Ends (∀ x ∈ vs, Passes x inner) (StopsIn vs inner) (LacksCellsIn vs inner ∨ r) o

section Ends

variable {α β : Type} {p p' r r' : Prop} {q q' : Stop → Prop} {x : Making α} {y : α → Making β} {heap heap' : Heap}
  {v : JanetValue} {vs : List JanetValue} {inner : Nat} {o : Result α}

theorem Ends.imp (h : Ends p q r o) (hp : p → p') (hq : ∀ s, q s → q' s) (hr : r → r') : Ends p' q' r' o := by
  cases h with
  | returns h a => exact .returns (hp h) a
  | stops h => exact .stops (hq _ h)
  | leaves h => exact .leaves (hr h)

/-- What follows a call that stops does not run. -/
theorem bind_of_stop {s : Stop} (h : (x heap).1 = s.outcome) : ((x >>= y) heap).1 = s.outcome := by
  show (Lib.Computation.bind x y heap).1 = _
  rcases hx : x heap with ⟨o, heap'⟩
  rw [hx] at h
  obtain rfl := h
  cases s <;> simp only [Lib.Computation.bind, hx, Stop.outcome]

/-- A call, and then what follows it. -/
theorem Ends.bind (h : Ends p q r (x heap).1) (hq : ∀ s, q s → q' s) (hr : r → r')
    (hy : p → ∀ a heap', x heap = (.returns a, heap') → Ends p' q' r' (y a heap').1) :
    Ends p' q' r' ((x >>= y) heap).1 := by
  rcases hx : x heap with ⟨o, heap'⟩
  rw [hx] at h
  cases h with
  | returns hp a =>
    rw [Computation.bind_of_returns hx]
    exact hy hp a heap' hx
  | stops hs =>
    rw [bind_of_stop (congrArg Prod.fst hx)]
    exact .stops (hq _ hs)
  | leaves h =>
    rw [Computation.bind_of_traps hx]
    exact .leaves (hr h)

/-- A call that is followed by one that returns. -/
theorem Ends.followed (h : Ends p q r (x heap).1) (hy : ∀ a heap', x heap = (.returns a, heap') →
    ∃ b, (y a heap').1 = .returns b) : Ends p q r ((x >>= y) heap).1 :=
  h.bind (fun _ hs => hs) (fun hr => hr) fun hp a heap' hx => by
    obtain ⟨b, hb⟩ := hy a heap' hx
    rw [hb]
    exact .returns hp b

/-- Making one value, and then the rest of the list. -/
theorem EndsIn.cons (h : Ends (Passes v inner) (Stops v inner) (LacksCells v inner) (x heap).1)
    (hy : Passes v inner → ∀ a heap', x heap = (.returns a, heap') → EndsIn vs inner r (y a heap').1) :
    EndsIn (v :: vs) inner r ((x >>= y) heap).1 := by
  refine h.bind (fun _ hs => .head hs) (fun hr => Or.inl (.head hr)) fun hp a heap' hx => ?_
  refine (hy hp a heap' hx).imp (fun hps w hw => ?_) (fun s hs => hs.tail hp) fun hr => hr.imp_left fun hr => hr.tail hp
  rcases List.mem_cons.mp hw with rfl | hw
  · exact hp
  · exact hps w hw

end Ends

/-! ## Containers -/

section Containers

variable {code : DictionaryCode} {v : JanetValue} {d : Nat} {heap : Heap}

/-- A container passes when its parts do. -/
theorem Passes.intro (hd : d < maxValueNestingDepth) (hs : Sized v) (hu : Supported v)
    (hp : ∀ w ∈ v.parts, Passes w (d + 1)) : Passes v d := by
  have hdepth : v.depth ≤ (maxValueNestingDepth - (d + 1)) + 1 :=
    depth_le_of_parts fun w hw => by have := (hp w hw).depth; omega
  exact ⟨by omega, .intro hs fun w hw => (hp w hw).sized, .intro hu fun w hw => (hp w hw).supported⟩

/-- Sequences: the elements are made, then counted. -/
theorem ends_sequence {xs : List JanetValue} {wrap : List Janet → Making Janet} (hparts : v.parts = xs)
    (hleaf : v.isLeaf = false) (hsized : Sized v ↔ xs.length < 2 ^ 31) (hsupported : Supported v)
    (henters : d < maxValueNestingDepth → Enters v d)
    (hstops : d < maxValueNestingDepth → (∀ x ∈ xs, Passes x (d + 1)) → 2 ^ 31 ≤ xs.length → StopsAt v d .overflow)
    (hraws : d < maxValueNestingDepth → EndsIn xs (d + 1) False (makeRaws code xs (d + 1) heap).1)
    (hlength : ∀ raws heap', makeRaws code xs (d + 1) heap = (.returns raws, heap') → raws.length = xs.length)
    (hwrap : ∀ raws heap', ∃ a, (wrap raws heap').1 = .returns a) :
    Ends (Passes v d) (Stops v d) (LacksCells v d) ((do
      let inner ← .lift (nest d)
      let raws ← makeRaws code xs inner
      let _ ← .lift (int32 raws.length)
      wrap raws : Making Janet) heap).1 := by
  subst hparts
  by_cases hd : d < maxValueNestingDepth
  · rw [nest_eq hd, Computation.lift_returns_bind]
    refine (hraws hd).bind (fun s hs => .below (henters hd) hs)
      (fun hr => .below (henters hd) (hr.resolve_right id)) fun hp raws heap' hrun => ?_
    have hlen := hlength raws _ hrun
    by_cases hsize : raws.length < 2 ^ 31
    · obtain ⟨a, ha⟩ := hwrap raws heap'
      rw [int32_eq hsize, Computation.lift_returns_bind, ha]
      exact .returns (.intro hd (hsized.mpr (hlen ▸ hsize)) hsupported hp) a
    · rw [show int32 raws.length = .traps .overflow from if_neg hsize]
      exact .stops (s := .overflow) (.here (hstops hd hp (by omega)))
  · rw [show nest d = .throws nestedDeeper from if_pos (by omega)]
    exact .stops (s := .deep) (.here (.deep hleaf (by omega)))

/-- Dictionaries: the entries are counted, then made and put. -/
theorem ends_dictionary {r : Prop} {es : List (JanetValue × JanetValue)} {body : Nat → BitVec 32 → Making Janet}
    (hleaf : v.isLeaf = false) (hsized : Sized v ↔ es.length < 2 ^ 31) (hsupported : Supported v)
    (henters : d < maxValueNestingDepth → es.length < 2 ^ 31 → Enters v d)
    (hstops : d < maxValueNestingDepth → 2 ^ 31 ≤ es.length → StopsAt v d .overflow)
    (hlacks : Enters v d → r → LacksCells v d)
    (hbody : d < maxValueNestingDepth → es.length < 2 ^ 31 →
      EndsIn v.parts (d + 1) r (body (d + 1) (BitVec.ofNat 32 es.length) heap).1) :
    Ends (Passes v d) (Stops v d) (LacksCells v d) ((do
      let inner ← .lift (nest d)
      let count ← .lift (int32 es.length)
      body inner count : Making Janet) heap).1 := by
  by_cases hd : d < maxValueNestingDepth
  · rw [nest_eq hd, Computation.lift_returns_bind]
    by_cases hsize : es.length < 2 ^ 31
    · have he := henters hd hsize
      rw [int32_eq hsize, Computation.lift_returns_bind]
      exact (hbody hd hsize).imp (fun hp => .intro hd (hsized.mpr hsize) hsupported hp) (fun s hs => .below he hs)
        fun hr => hr.elim (.below he) (hlacks he)
    · rw [show int32 es.length = .traps .overflow from if_neg hsize]
      exact .stops (s := .overflow) (.here (hstops hd (by omega)))
  · rw [show nest d = .throws nestedDeeper from if_pos (by omega)]
    exact .stops (s := .deep) (.here (.deep hleaf (by omega)))

end Containers

/-! ## Loops -/

section Loops

variable {code : DictionaryCode} {inner : Nat}

/-- Making the value ends as its verdict says, in every heap. -/
def Judged (code : DictionaryCode) (inner : Nat) (w : JanetValue) : Prop :=
  ∀ heap, Ends (Passes w inner) (Stops w inner) (LacksCells w inner) (makeRaw code w inner heap).1

theorem makeRaws_ends : ∀ {xs : List JanetValue} (heap : Heap), (∀ w ∈ xs, Judged code inner w) →
    EndsIn xs inner False (makeRaws code xs inner heap).1
  | [], _, _ => .returns (by simp) []
  | x :: xs, heap, h => by
    rw [makeRaws]
    refine EndsIn.cons (h x List.mem_cons_self heap) fun _ raw heap' _ => ?_
    exact (makeRaws_ends heap' fun w hw => h w (List.mem_cons_of_mem _ hw)).followed fun raws heap'' _ => ⟨_, rfl⟩

theorem length_makeRaws : ∀ {xs : List JanetValue} {heap heap' : Heap} {raws : List Janet},
    makeRaws code xs inner heap = (.returns raws, heap') → raws.length = xs.length
  | [], _, _, _, h => by
    cases h
    rfl
  | x :: xs, heap, heap', raws, h => by
    obtain ⟨raw, heap₁, raws₁, _, hraws, rfl⟩ := makeRaws_returns h
    exact congrArg Nat.succ (length_makeRaws hraws)

/-- A struct of `n` entries that is being built: it has cells, or none of its entries. -/
structure StructAt (n : Nat) (st : StructBuilder) : Prop where
  cells : n < 2 ^ 30 ∨ st.cells = [] ∧ st.count = 0
  room : st.cells = [] → 2 ^ 30 ≤ n
  length : st.length = n
  nonneg : 0 ≤ st.count
  le : st.count ≤ n

theorem structAt_begin {n : Nat} (hn : n < 2 ^ 31) : StructAt n (janetStructBegin (BitVec.ofNat 32 n)) := by
  have hlength : (janetStructBegin (BitVec.ofNat 32 n)).length = n := by
    show (BitVec.ofNat 32 n).toInt = n
    have hnat := toNat_count hn
    rw [BitVec.toInt_eq_toNat_of_lt (by omega), hnat]
  refine ⟨?_, fun hnone => ?_, hlength, Int.le_refl 0, Int.natCast_nonneg n⟩
  · by_cases hsmall : n < 2 ^ 30
    · exact Or.inl hsmall
    · exact Or.inr ⟨begin_overflow (by omega) hn, rfl⟩
  · by_contra hsmall
    have hroom := (@begin_capacity n (by omega)).2.2.1
    rw [hnone] at hroom
    exact absurd hroom (Nat.not_lt_zero n)

theorem StructAt.put {hashing : Hashing} {n : Nat} {st st' : StructBuilder} {key value : Janet} (h : StructAt n st)
    (hput : janetStructPut hashing st key value = some st') : StructAt n st' := by
  have hsteps := steps_structPut hput
  have hnil : st.cells = [] → st' = st := fun hcells => by rw [structPut_returns hput, putCells_nil hcells]
  refine ⟨h.cells.imp_right fun hempty => by rwa [hnil hempty.1], fun hnone => h.room ?_,
    hsteps.length.trans h.length, ?_, ?_⟩
  · rw [← List.length_eq_zero_iff, ← hsteps.cells, hnone, List.length_nil]
  · have := h.nonneg
    rcases hsteps.count with hc | hc <;> omega
  · rw [structPut_returns hput, ← h.length]
    exact count_putCells_le (h.length ▸ h.le)

theorem putStruct_structAt {hashing : Heap → Hashing} {n : Nat} : ∀ {es : List (JanetValue × JanetValue)}
    {st st' : StructBuilder} {heap heap' : Heap}, StructAt n st →
      putStruct (vmDictionaries hashing) es inner st heap = (.returns st', heap') → StructAt n st'
  | [], _, _, _, _, hst, h => by
    cases h
    exact hst
  | (_, _) :: _, _, _, _, _, hst, h => by
    obtain ⟨_, _, _, _, _, _, _, hput, h⟩ := putStruct_returns h
    exact putStruct_structAt (hst.put hput) h

theorem Puts.tail {e : JanetValue × JanetValue} {es : List (JanetValue × JanetValue)}
    (he : Passes e.1 inner ∧ Passes e.2 inner) (h : Puts es inner) : Puts (e :: es) inner := by
  obtain ⟨before, f, after, rfl, hpass, hs⟩ := h
  refine ⟨e :: before, f, after, rfl, fun g hg => ?_, hs⟩
  rcases List.mem_cons.mp hg with rfl | hg
  · exact he
  · exact hpass g hg

theorem putStruct_ends {hashing : Heap → Hashing} {n : Nat} : ∀ {es : List (JanetValue × JanetValue)}
    {st : StructBuilder} (heap : Heap), (∀ w ∈ es.flatMap (fun e => [e.1, e.2]), Judged (vmDictionaries hashing) inner w) →
      StructAt n st → EndsIn (es.flatMap fun e => [e.1, e.2]) inner (2 ^ 30 ≤ n ∧ Puts es inner)
        (putStruct (vmDictionaries hashing) es inner st heap).1
  | [], _, _, _, _ => .returns (by simp) _
  | (key, value) :: es, st, heap, h, hst => by
    rw [putStruct]
    refine EndsIn.cons (h key (by simp) heap) fun hk rawKey heap₁ hkey => ?_
    refine EndsIn.cons (h value (by simp) heap₁) fun hv rawValue heap₂ hvalue => ?_
    cases hput : janetStructPut (hashing heap₂) st rawKey rawValue with
    | none =>
      have hrun : structPut (vmDictionaries hashing) st rawKey rawValue heap₂ = (.traps .memory, heap₂) := by
        rw [structPut, show (vmDictionaries hashing).structPut heap₂ st rawKey rawValue = none from hput]
      obtain ⟨hcells, hs⟩ := of_structPut_none hput
      rw [Computation.bind_of_traps hrun]
      refine .leaves (Or.inr ⟨hst.room hcells, [], (key, value), es, rfl, fun f hf => ?_, (storable_iff hkey hvalue).mp hs⟩)
      obtain rfl := List.mem_singleton.mp hf
      exact ⟨hk, hv⟩
    | some st₁ =>
      have hrun : structPut (vmDictionaries hashing) st rawKey rawValue heap₂ = (.returns st₁, heap₂) :=
        structPut_returns_iff.mpr ⟨hput, rfl⟩
      rw [Computation.bind_of_returns hrun]
      have hrest := putStruct_ends heap₂ (fun w hw => h w (by
        simp only [List.flatMap_cons, List.mem_append]
        exact Or.inr hw)) (hst.put hput)
      exact hrest.imp id (fun _ hs => hs) (.imp_right fun ⟨hn, hputs⟩ => ⟨hn, hputs.tail ⟨hk, hv⟩⟩)

/-- A struct that was built ends. -/
theorem StructAt.end_returns {hashing : Heap → Hashing} {n : Nat} {st : StructBuilder} (h : StructAt n st) (heap : Heap) :
    ∃ p heap', structEnd (vmDictionaries hashing) st heap = (.returns p, heap') := by
  have hcount : st.count < 2 ^ 30 := by
    have := h.le
    rcases h.cells with hsmall | ⟨_, hcount⟩ <;> omega
  obtain ⟨s, hs⟩ := @structEnd_isSome (hashing heap) st none h.nonneg hcount
  rw [structEnd, show (vmDictionaries hashing).structEnd heap st = some s from hs]
  exact ⟨_, _, rfl⟩

/-- The table at `p` has taken at most `m` entries so far. -/
structure TableAt (p m : Nat) (heap : Heap) : Prop where
  pos : 0 < p
  lt : p < heap.tables.next
  ok : (heap.tables.get p).Ok
  used : (heap.tables.get p).used ≤ m

theorem TableAt.frame {p m : Nat} {heap heap' : Heap} (h : TableAt p m heap) (hx : heap.Extends 0 heap') :
    TableAt p m heap' := by
  have hget : heap'.tables.get p = heap.tables.get p := hx.tables.get_eq p h.pos h.lt (Nat.ne_of_gt h.pos)
  exact ⟨h.pos, Nat.lt_of_lt_of_le h.lt hx.tables.next_le, hget ▸ h.ok, hget ▸ h.used⟩

/-- A new table has taken no entries. -/
theorem tableAt_new {heap : Heap} {n : Nat} (hn : n < 2 ^ 31) :
    TableAt heap.tables.next 0 (heap.allocTable (janetTable (BitVec.ofNat 32 n))).1 := by
  have hnat := toNat_count hn
  obtain ⟨hok, hused, _⟩ := @ok_table (BitVec.ofNat 32 n) (by omega)
  refine ⟨heap.tables.pos, Nat.lt_succ_self _, ?_, ?_⟩
  · rw [show (heap.allocTable _).1.tables.get heap.tables.next = _ from Store.get_alloc]
    exact hok
  · rw [show (heap.allocTable _).1.tables.get heap.tables.next = _ from Store.get_alloc, hused]
    exact Int.le_refl 0

/-- A put leaves a table in order behind. -/
theorem TableAt.set {hashing : Heap → Hashing} {p m n : Nat} {heap : Heap} {key value : Janet} {t : JanetTable}
    (h : TableAt p m heap) (ht : janetTablePut (hashing heap) (heap.tables.get p) key value = some t) (hok : t.Ok)
    (hused : t.used ≤ n) :
    ∃ heap', tablePut (vmDictionaries hashing) p key value heap = (.returns (), heap') ∧ TableAt p n heap' := by
  refine ⟨{ heap with tables := heap.tables.set p t }, ?_, h.pos, h.lt, ?_, ?_⟩
  · rw [tablePut, show (vmDictionaries hashing).tablePut heap (heap.tables.get p) key value = some t from ht]
  · show ((heap.tables.set p t).get p).Ok
    rw [Store.get_set]
    exact hok
  · show ((heap.tables.set p t).get p).used ≤ _
    rw [Store.get_set]
    exact hused

theorem TableAt.put {hashing : Heap → Hashing} {p m : Nat} {heap : Heap} (h : TableAt p m heap) (hm : m < 2 ^ 31 - 1)
    (key value : Janet) :
    ∃ heap', tablePut (vmDictionaries hashing) p key value heap = (.returns (), heap') ∧ TableAt p (m + 1) heap' := by
  have hused := h.used
  obtain ⟨t, ht, hok, huse, _⟩ := @ok_put (hashing heap) (heap.tables.get p) key value h.ok (by omega)
  exact h.set ht hok (by omega)

theorem putTable_ends {hashing : Heap → Hashing} {p : Nat} : ∀ {es : List (JanetValue × JanetValue)} {m : Nat}
    (heap : Heap), (∀ w ∈ es.flatMap (fun e => [e.1, e.2]), Judged (vmDictionaries hashing) inner w) →
      TableAt p m heap → m + es.length ≤ 2 ^ 31 - 1 →
        EndsIn (es.flatMap fun e => [e.1, e.2]) inner False (putTable (vmDictionaries hashing) es inner p heap).1
  | [], _, _, _, _, _ => .returns (by simp) _
  | (key, value) :: es, m, heap, h, ht, hm => by
    rw [List.length_cons] at hm
    rw [putTable]
    refine EndsIn.cons (h key (by simp) heap) fun _ rawKey heap₁ h₁ => ?_
    refine EndsIn.cons (h value (by simp) heap₁) fun _ rawValue heap₂ h₂ => ?_
    have hx₁ : heap.Extends 0 heap₁ := by
      have := (makeRaw_keeps (vmDictionaries hashing) key inner heap).toExtends
      rwa [h₁] at this
    have hx₂ : heap₁.Extends 0 heap₂ := by
      have := (makeRaw_keeps (vmDictionaries hashing) value inner heap₁).toExtends
      rwa [h₂] at this
    obtain ⟨heap₃, hput, ht₃⟩ := @TableAt.put hashing p m heap₂ (ht.frame (hx₁.trans hx₂)) (by omega) rawKey rawValue
    rw [Computation.bind_of_returns hput]
    exact putTable_ends heap₃ (fun w hw => h w (by
      simp only [List.flatMap_cons, List.mem_append]
      exact Or.inr hw)) ht₃ (by omega)

end Loops

/-! ## The verdict -/

section Verdict

variable {hashing : Heap → Hashing} {v w : JanetValue} {d d' : Nat} {s s' : Stop}

theorem Passes.leaf (hv : v.isLeaf = true) (hd : d ≤ maxValueNestingDepth) (hs : Sized v) (hu : Supported v) :
    Passes v d := by
  refine ⟨by rw [depth_leaf hv]; omega, .intro hs ?_, .intro hu ?_⟩
  · rw [parts_leaf hv]
    simp
  · rw [parts_leaf hv]
    simp

theorem passesIn_or_stops {vs : List JanetValue} : (∀ x ∈ vs, Passes x d ∨ ∃ s, Stops x d s) →
    (∀ x ∈ vs, Passes x d) ∨ ∃ s, StopsIn vs d s := by
  induction vs with
  | nil => exact fun _ => Or.inl (by simp)
  | cons x vs ih =>
    intro h
    rcases h x List.mem_cons_self with hx | ⟨s, hs⟩
    · rcases ih fun y hy => h y (List.mem_cons_of_mem _ hy) with hvs | ⟨s, hs⟩
      · exact Or.inl (List.forall_mem_cons.mpr ⟨hx, hvs⟩)
      · exact Or.inr ⟨s, hs.tail hx⟩
    · exact Or.inr ⟨s, .head hs⟩

/-- A value passes, or making stops somewhere in it. -/
theorem passes_or_stops (v : JanetValue) : ∀ {d : Nat}, d ≤ maxValueNestingDepth → Passes v d ∨ ∃ s, Stops v d s := by
  induction v using partsInduction with
  | h v ih =>
    intro d hd
    have htext : ∀ {text : Text}, v.isLeaf = true → (Sized v ↔ text.utf8.length < 2 ^ 31) → Supported v →
        (2 ^ 31 ≤ text.utf8.length → StopsAt v d .overflow) → Passes v d ∨ ∃ s, Stops v d s := by
      intro text hv hs hu hstops
      by_cases hsize : text.utf8.length < 2 ^ 31
      · exact Or.inl (.leaf hv hd (hs.mpr hsize) hu)
      · exact Or.inr ⟨_, .here (hstops (by omega))⟩
    have hdeep : v.isLeaf = false → ¬d < maxValueNestingDepth → ∃ s, Stops v d s := fun hv hlt =>
      ⟨_, .here (.deep hv (by omega))⟩
    have hbelow : d < maxValueNestingDepth → Enters v d → (∀ w ∈ v.parts, Passes w (d + 1)) ∨ ∃ s, Stops v d s :=
      fun hlt he => (passesIn_or_stops fun w hw => ih w hw hlt).imp_right fun ⟨s, hs⟩ => ⟨s, .below he hs⟩
    -- the elements of a sequence are made before they are counted
    have hsequence : v.isLeaf = false → (Sized v ↔ v.parts.length < 2 ^ 31) → Supported v →
        (d < maxValueNestingDepth → Enters v d) →
        (d < maxValueNestingDepth → (∀ x ∈ v.parts, Passes x (d + 1)) → 2 ^ 31 ≤ v.parts.length →
          StopsAt v d .overflow) → Passes v d ∨ ∃ s, Stops v d s := by
      intro hv hs hu he hstops
      by_cases hlt : d < maxValueNestingDepth
      · rcases hbelow hlt (he hlt) with hp | hstop
        · by_cases hsize : v.parts.length < 2 ^ 31
          · exact Or.inl (.intro hlt (hs.mpr hsize) hu hp)
          · exact Or.inr ⟨_, .here (hstops hlt hp (by omega))⟩
        · exact Or.inr hstop
      · exact Or.inr (hdeep hv hlt)
    -- the entries of a dictionary are counted before they are made
    have hdictionary : ∀ {es : List (JanetValue × JanetValue)}, v.isLeaf = false → (Sized v ↔ es.length < 2 ^ 31) →
        Supported v → (d < maxValueNestingDepth → es.length < 2 ^ 31 → Enters v d) →
        (d < maxValueNestingDepth → 2 ^ 31 ≤ es.length → StopsAt v d .overflow) → Passes v d ∨ ∃ s, Stops v d s := by
      intro es hv hs hu he hstops
      by_cases hlt : d < maxValueNestingDepth
      · by_cases hsize : es.length < 2 ^ 31
        · exact (hbelow hlt (he hlt hsize)).imp_left (.intro hlt (hs.mpr hsize) hu)
        · exact Or.inr ⟨_, .here (hstops hlt (by omega))⟩
      · exact Or.inr (hdeep hv hlt)
    cases v with
    | nil => exact Or.inl (.leaf rfl hd trivial trivial)
    | boolean b => exact Or.inl (.leaf rfl hd trivial trivial)
    | number x => exact Or.inl (.leaf rfl hd trivial trivial)
    | string t => exact htext rfl Iff.rfl trivial .string
    | keyword t => exact htext rfl Iff.rfl trivial .keyword
    | symbol t => exact htext rfl Iff.rfl trivial .symbol
    | tuple xs => exact hsequence rfl Iff.rfl trivial id .tuple
    | array xs => exact hsequence rfl Iff.rfl trivial id .array
    | struct es => exact hdictionary rfl Iff.rfl trivial .intro .struct
    | table es => exact hdictionary rfl Iff.rfl trivial .intro .table
    | unsupported name => exact Or.inr ⟨_, .here .unsupported⟩

/-- Making a text: its length is looked at before it is copied. -/
theorem text_ends {text : Text} {body : List UInt8 → Making Janet} {heap : Heap} (hv : v.isLeaf = true)
    (hd : d ≤ maxValueNestingDepth) (hs : Sized v ↔ text.utf8.length < 2 ^ 31) (hu : Supported v)
    (hstops : 2 ^ 31 ≤ text.utf8.length → StopsAt v d .overflow) (hbody : ∃ raw, (body text.utf8 heap).1 = .returns raw) :
    Ends (Passes v d) (Stops v d) (LacksCells v d) (withJanetBytes text body heap).1 := by
  rw [withJanetBytes]
  by_cases hsize : text.utf8.length < 2 ^ 31
  · obtain ⟨raw, hraw⟩ := hbody
    rw [int32_eq hsize, Computation.lift_returns_bind, hraw]
    exact .returns (Passes.leaf hv hd (hs.mpr hsize) hu) raw
  · rw [show int32 text.utf8.length = .traps .overflow from if_neg hsize]
    exact .stops (s := .overflow) (.here (hstops (by omega)))

/-- **Making ends as the value says**: it returns when the value passes, and stops where it does not, unless it comes to
a struct without cells. -/
theorem makeRaw_ends (hashing : Heap → Hashing) (v : JanetValue) : ∀ (d : Nat) (heap : Heap), d ≤ maxValueNestingDepth →
    Ends (Passes v d) (Stops v d) (LacksCells v d) (makeRaw (vmDictionaries hashing) v d heap).1 := by
  induction v using partsInduction with
  | h v ih =>
    intro d heap hd
    have hparts : d < maxValueNestingDepth → ∀ w ∈ v.parts, Judged (vmDictionaries hashing) (d + 1) w :=
      fun hlt w hw heap => ih w hw (d + 1) heap hlt
    cases v with
    | nil => exact .returns (Passes.leaf (v := .nil) rfl hd trivial trivial) _
    | boolean b => exact .returns (Passes.leaf (v := .boolean b) rfl hd trivial trivial) _
    | number x => exact .returns (Passes.leaf (v := .number x) rfl hd trivial trivial) _
    | string t => exact text_ends rfl hd Iff.rfl trivial .string ⟨_, rfl⟩
    | keyword t => exact text_ends rfl hd Iff.rfl trivial .keyword ⟨_, rfl⟩
    | symbol t => exact text_ends rfl hd Iff.rfl trivial .symbol ⟨_, rfl⟩
    | tuple xs =>
      rw [makeRaw]
      exact ends_sequence rfl rfl Iff.rfl trivial id .tuple (fun hlt => makeRaws_ends heap (hparts hlt))
        (fun raws heap' h => length_makeRaws h) fun raws heap' => ⟨_, rfl⟩
    | array xs =>
      rw [makeRaw]
      exact ends_sequence rfl rfl Iff.rfl trivial id .array (fun hlt => makeRaws_ends heap (hparts hlt))
        (fun raws heap' h => length_makeRaws h) fun raws heap' => ⟨_, rfl⟩
    | struct es =>
      rw [makeRaw]
      refine ends_dictionary rfl Iff.rfl trivial .intro .struct (fun he hr => ⟨es, d, .here, he, hr⟩) fun hlt hsize => ?_
      have hbegin := structAt_begin hsize
      refine (putStruct_ends heap (hparts hlt) hbegin).followed fun st heap' hst => ?_
      obtain ⟨p, heap'', hend⟩ := @StructAt.end_returns hashing es.length st (putStruct_structAt hbegin hst) heap'
      exact ⟨_, by rw [Computation.bind_of_returns hend]; rfl⟩
    | table es =>
      rw [makeRaw]
      refine ends_dictionary rfl Iff.rfl trivial .intro .table (fun _ hr => absurd hr id) fun hlt hsize => ?_
      have ht := @tableAt_new heap es.length hsize
      exact (putTable_ends _ (hparts hlt) ht (by omega)).followed fun _ heap' _ => ⟨_, rfl⟩
    | unsupported name => exact .stops (s := .unsupported) (.here .unsupported)

theorem StopsAt.not_passes (h : StopsAt v d s) : ¬Passes v d := by
  intro hp
  have hdepth := hp.depth
  have hsized := hp.sized.here
  have hcontainer : v.isLeaf = false → 0 < v.depth := by
    intro hc
    cases v with
    | tuple xs => exact Nat.succ_pos _
    | array xs => exact Nat.succ_pos _
    | struct es => exact Nat.succ_pos _
    | table es => exact Nat.succ_pos _
    | _ => cases hc
  cases h with
  | deep hc h =>
    have := hcontainer hc
    omega
  | unsupported => exact hp.supported.here
  | string h | keyword h | symbol h => exact absurd hsized (by simp only [Sized]; omega)
  | tuple _ _ h | array _ _ h | struct _ h | table _ h => exact absurd hsized (by simp only [Sized]; omega)

theorem Passes.part (hp : Passes v d) (hw : w ∈ v.parts) : Passes w (d + 1) := by
  have hpos : 0 < v.depth := by
    cases v with
    | tuple xs => exact Nat.succ_pos _
    | array xs => exact Nat.succ_pos _
    | struct es => exact Nat.succ_pos _
    | table es => exact Nat.succ_pos _
    | _ => simp [parts] at hw
  have := depth_parts (Nat.le_of_eq (Nat.succ_pred_eq_of_pos hpos).symm) w hw
  have hdepth := hp.depth
  exact ⟨by rw [Nat.pred_eq_sub_one] at this; omega, hp.sized.part hw, hp.supported.part hw⟩

/-- Making does not stop at a value that passes. -/
theorem Stops.not_passes (h : Stops v d s) : ¬Passes v d := by
  obtain ⟨w, d', hc, hs⟩ := h
  induction hc with
  | here => exact hs.not_passes
  | part _ hp _ _ ih => exact fun hpass => ih hs (hpass.part (by rw [hp]; simp))

/-- Making does not go into a value that it stops at, unless all parts pass. -/
theorem StopsAt.not_enters (h : StopsAt v d s) (he : Enters v d) : ∀ w ∈ v.parts, Passes w (d + 1) := by
  cases h with
  | deep hc h =>
    cases v with
    | tuple xs => exact absurd he (by simp only [Enters]; omega)
    | array xs => exact absurd he (by simp only [Enters]; omega)
    | struct es => exact absurd he (by simp only [Enters]; omega)
    | table es => exact absurd he (by simp only [Enters]; omega)
    | _ => cases hc
  | tuple _ hp _ => exact hp
  | array _ hp _ => exact hp
  | struct _ h => exact absurd he.2 (by omega)
  | table _ h => exact absurd he.2 (by omega)
  | string _ | keyword _ | symbol _ | unsupported => exact absurd he id

theorem StopsAt.unique (h : StopsAt v d s) (h' : StopsAt v d s') : s = s' := by
  cases h <;> cases h' <;> first | rfl | omega | (next hc _ => cases hc) | (next hc => cases hc)

/-- Two splits of a list at values that do not pass are the same. -/
theorem split_unique {p : JanetValue → Prop} {u u' : JanetValue} : ∀ {before before' after after' : List JanetValue},
    before ++ u :: after = before' ++ u' :: after' → (∀ x ∈ before, p x) → (∀ x ∈ before', p x) → ¬p u → ¬p u' → u = u'
  | [], [], _, _, h, _, _, _, _ => (List.cons.inj h).1
  | [], x :: _, _, _, h, _, hb', hu, _ => by
    obtain rfl := (List.cons.inj h).1
    exact absurd (hb' _ List.mem_cons_self) hu
  | x :: _, [], _, _, h, hb, _, _, hu' => by
    obtain rfl := (List.cons.inj h).1
    exact absurd (hb _ List.mem_cons_self) hu'
  | x :: before, x' :: before', _, _, h, hb, hb', hu, hu' =>
    split_unique (List.cons.inj h).2 (fun y hy => hb y (List.mem_cons_of_mem _ hy))
      (fun y hy => hb' y (List.mem_cons_of_mem _ hy)) hu hu'

/-- Making stops for one reason. -/
theorem Stops.unique (h : Stops v d s) (h' : Stops v d s') : s = s' := by
  obtain ⟨w, d₁, hc, hs⟩ := h
  induction hc with
  | @here v d =>
    obtain ⟨w', d₂, hc', hs'⟩ := h'
    cases hc' with
    | here => exact hs.unique hs'
    | part he hp hb hc' =>
      exact absurd (hs.not_enters he _ (by rw [hp]; simp)) (Stops.not_passes ⟨_, _, hc', hs'⟩)
  | @part v u w d d₁ before after he hp hb hc ih =>
    obtain ⟨w', d₂, hc', hs'⟩ := h'
    cases hc' with
    | here => exact absurd (hs'.not_enters he _ (by rw [hp]; simp)) (Stops.not_passes ⟨_, _, hc, hs⟩)
    | part he' hp' hb' hc' =>
      obtain rfl := split_unique (hp.symm.trans hp') hb hb' (Stops.not_passes ⟨_, _, hc, hs⟩)
        (Stops.not_passes ⟨_, _, hc', hs'⟩)
      exact ih ⟨_, _, hc', hs'⟩ hs

theorem Passes.le (h : Passes v d') (hd : d ≤ d') : Passes v d :=
  ⟨by have := h.depth; omega, h.sized, h.supported⟩

theorem Enters.le (h : Enters v d') (hd : d ≤ d') : Enters v d := by
  cases v with
  | tuple xs | array xs => exact Nat.lt_of_le_of_lt hd h
  | struct es | table es => exact ⟨Nat.lt_of_le_of_lt hd h.1, h.2⟩
  | _ => exact absurd h id

/-- Further up making comes to the same places, and may come to more. -/
theorem Comes.le {k : Nat} (h : Comes v d' w k) (hd : d ≤ d') : ∃ k', k' ≤ k ∧ Comes v d w k' := by
  induction h generalizing d with
  | here => exact ⟨d, hd, .here⟩
  | part he hp hb _ ih =>
    obtain ⟨k', hk, hc⟩ := ih (Nat.succ_le_succ hd)
    exact ⟨k', hk, .part (he.le hd) hp (fun x hx => (hb x hx).le (Nat.succ_le_succ hd)) hc⟩

theorem LacksCells.le (h : LacksCells v d') (hd : d ≤ d') : LacksCells v d := by
  obtain ⟨es, k, hc, he, hlarge, before, e, after, heq, hpass, hs⟩ := h
  obtain ⟨k', hk, hc'⟩ := hc.le hd
  refine ⟨es, k', hc', he.le hk, hlarge, before, e, after, heq, fun f hf => ?_, hs⟩
  exact ⟨(hpass f hf).1.le (Nat.succ_le_succ hk), (hpass f hf).2.le (Nat.succ_le_succ hk)⟩

/-- What making comes to lies inside the value. -/
theorem Comes.all {p : JanetValue → Prop} (h : Comes v d w d') (hv : All p v) : All p w := by
  induction h with
  | here => exact hv
  | part _ hp _ _ ih => exact ih (hv.part (by rw [hp]; simp))

/-- Small structs have cells. -/
theorem not_lacksCells (h : All SmallStruct v) : ¬LacksCells v d := by
  rintro ⟨es, k, hc, _, hlarge, _⟩
  have hsmall : es.length < 2 ^ 30 := (hc.all h).here
  omega

/-- What making returned passes. -/
theorem passes_of_returns {heap heap' : Heap} {raw : Janet} (hd : d ≤ maxValueNestingDepth)
    (h : makeRaw (vmDictionaries hashing) v d heap = (.returns raw, heap')) : Passes v d := by
  have hends := makeRaw_ends hashing v d heap hd
  rw [h] at hends
  generalize ho : (Outcome.returns raw : Result Janet) = o at hends
  cases hends with
  | returns hp => exact hp
  | @stops s _ => cases s <;> cases ho
  | leaves => cases ho

end Verdict

/-! ## A table with a struct in it -/

/-- `.struct([.boolean(true): .string("v"), .symbol("s"): .tuple([.number(1)])])`. -/
def innerStruct : JanetValue :=
  .struct [(.boolean true, .string "v".toList), (.symbol "s".toList, .tuple [.number ⟨0x3FF0000000000000#64⟩])]

/-- `.table([.number(1): .boolean(true), .keyword("k"): inner])`, with the struct as the second value. -/
def nestedTable : JanetValue :=
  .table [(.number ⟨0x3FF0000000000000#64⟩, .boolean true), (.keyword "k".toList, innerStruct)]

/-- What holds of the table and of all parts. -/
theorem all_nestedTable {p : JanetValue → Prop} (hnumber : p (.number ⟨0x3FF0000000000000#64⟩)) (htrue : p (.boolean true))
    (hkeyword : p (.keyword "k".toList)) (hstring : p (.string "v".toList)) (hsymbol : p (.symbol "s".toList))
    (htuple : p (.tuple [.number ⟨0x3FF0000000000000#64⟩])) (hinner : p innerStruct) (h : p nestedTable) :
    All p nestedTable := by
  have leaf : ∀ {w}, w.isLeaf = true → p w → All p w := fun hw hp => .intro hp (by simp [parts_leaf hw])
  have htuple : All p (.tuple [.number ⟨0x3FF0000000000000#64⟩]) := .intro htuple fun w hw => by
    obtain rfl := List.mem_singleton.mp hw
    exact leaf rfl hnumber
  have hinner : All p innerStruct := .intro hinner fun w hw => by
    simp only [innerStruct, parts, List.flatMap_cons, List.flatMap_nil, List.cons_append, List.nil_append,
      List.mem_cons, List.not_mem_nil, or_false] at hw
    rcases hw with rfl | rfl | rfl | rfl
    · exact leaf rfl htrue
    · exact leaf rfl hstring
    · exact leaf rfl hsymbol
    · exact htuple
  refine .intro h fun w hw => ?_
  simp only [nestedTable, parts, List.flatMap_cons, List.flatMap_nil, List.cons_append, List.nil_append,
    List.mem_cons, List.not_mem_nil, or_false] at hw
  rcases hw with rfl | rfl | rfl | rfl
  · exact leaf rfl hnumber
  · exact leaf rfl htrue
  · exact leaf rfl hkeyword
  · exact hinner

theorem passes_nestedTable : Passes nestedTable 0 where
  depth := by decide
  sized := all_nestedTable trivial trivial (show (Text.utf8 "k".toList).length < 2 ^ 31 by decide)
    (show (Text.utf8 "v".toList).length < 2 ^ 31 by decide) (show (Text.utf8 "s".toList).length < 2 ^ 31 by decide)
    (show 1 < 2 ^ 31 by decide) (show 2 < 2 ^ 31 by decide) (show 2 < 2 ^ 31 by decide)
  supported := all_nestedTable trivial trivial trivial trivial trivial trivial trivial trivial

theorem small_nestedTable : All SmallStruct nestedTable :=
  all_nestedTable trivial trivial trivial trivial trivial trivial (show 2 < 2 ^ 30 by decide) trivial

theorem lawful_nestedTable : @Lawful ⟨id⟩ nestedTable :=
  all_nestedTable trivial trivial trivial trivial trivial trivial
    (List.pairwise_cons.mpr ⟨fun e he => by rw [List.mem_singleton.mp he]; rfl, List.pairwise_singleton ..⟩)
    (List.pairwise_cons.mpr ⟨fun e he => by rw [List.mem_singleton.mp he]; rfl, List.pairwise_singleton ..⟩)

end SwiftJanet
