import SwiftJanet.Copy.Unfolding
import SwiftJanet.VM.Script

/-!
# When copying out traps

Arrays reach Swift with `data` as it is, and an empty array may have no block. `Heap.MeetsNullArray` says that such an
array comes first in the order of copying, before anything throws.

- in a sound heap nothing else is `NULL` (`exposed_iff`);
- `copyOut_safe_iff`: over reachable heaps copying returns or throws exactly when no such array comes first.
-/

namespace SwiftJanet

open Lib

/-! ## Sound heaps -/

section Sound

variable {heap : Heap} {raw : Janet}

/-- The address of the container has been given out. -/
def Heap.Allocated (heap : Heap) : Container → Prop
  | .tuple p => 0 < p ∧ p < heap.tuples.next
  | .array p => 0 < p ∧ p < heap.arrays.next
  | .struct p => 0 < p ∧ p < heap.structs.next
  | .table p => 0 < p ∧ p < heap.tables.next

/-- A valid value points to a container that exists. -/
theorem allocated_of_valid {c : Container} (hv : heap.Valid raw) (hat : c.IsAt raw) : heap.Allocated c := by
  cases raw with
  | number d =>
    have hnum : janetType (.number d) = .number := hv
    cases c <;> exact absurd (hnum.symm.trans hat.1) (by decide)
  | box t q =>
    cases c with
    | tuple p => obtain ⟨rfl, hp⟩ := hat; obtain ⟨rfl, _⟩ := pointer_eq_some.mp hp; exact hv
    | array p => obtain ⟨rfl, hp⟩ := hat; obtain ⟨rfl, _⟩ := pointer_eq_some.mp hp; exact hv
    | struct p => obtain ⟨rfl, hp⟩ := hat; obtain ⟨rfl, _⟩ := pointer_eq_some.mp hp; exact hv
    | table p => obtain ⟨rfl, hp⟩ := hat; obtain ⟨rfl, _⟩ := pointer_eq_some.mp hp; exact hv

/-- The keys and values of valid cells are valid. -/
theorem valid_alternate {kvs : List JanetKV} (h : CellsAll heap.Valid kvs) :
    ∀ w ∈ alternate (live kvs), heap.Valid w := by
  intro w hw
  obtain ⟨kv, hkv, hw⟩ := List.mem_flatMap.mp hw
  have := h.live kv hkv
  simp only [List.mem_cons, List.not_mem_nil, or_false] at hw
  rcases hw with rfl | rfl
  · exact this.1
  · exact this.2

/-- What a container of a sound heap holds is valid. -/
theorem valid_children {c : Container} (hs : heap.Sound) (hc : heap.Allocated c) :
    ∀ w ∈ heap.children c, heap.Valid w := by
  cases c with
  | tuple p => exact hs.tuples p hc.1 hc.2
  | array p => exact hs.arrays p hc.1 hc.2
  | struct p => exact valid_alternate (hs.structs p hc.1 hc.2)
  | table p => exact valid_alternate (hs.tables p hc.1 hc.2).cells

/-- In a sound heap only an array can be without a block. -/
theorem array_of_no_block {c : Container} (hs : heap.Sound) (hc : heap.Allocated c) (h : heap.hasBlock c = false) :
    ∃ p, c = .array p ∧ (heap.arrays.get p).data = none := by
  cases c with
  | tuple p => cases h
  | struct p => cases h
  | array p => exact ⟨p, rfl, by simpa [Heap.hasBlock] using h⟩
  | table p =>
    have := (hs.tables p hc.1 hc.2).block
    rw [Heap.hasBlock] at h
    rw [h] at this
    cases this

end Sound

/-! ## What traps -/

section Trap

variable [CanonicalForm] {heap : Heap} {raw : Janet} {path : CopyPath}

/-- `raw` copies to its end within `n` levels: it is finite, and no block on the way is `NULL`. -/
def Heap.Copies (heap : Heap) (n : Nat) (raw : Janet) : Prop := Within heap.view (Intact heap.view) n raw

/-- Copying `raw` from `path` meets an array without a block first: every container on the way to it may be entered,
and whatever stands to the left of the way copies to its end. -/
inductive Heap.MeetsNullArray (heap : Heap) : CopyPath → Janet → Prop
  | array {path : CopyPath} {raw : Janet} {p : Nat} (hat : (Container.array p).IsAt raw)
      (hnull : (heap.arrays.get p).data = none) (hd : path.depth < maxValueNestingDepth)
      (hf : Address.array p ∉ path.marked) : MeetsNullArray heap path raw
  | inside {path : CopyPath} {raw w : Janet} {c : Container} {left right : List Janet} (hat : c.IsAt raw)
      (hblock : heap.hasBlock c = true) (hk : heap.children c = left ++ w :: right)
      (hd : path.depth < maxValueNestingDepth) (hf : ∀ a, c.address = some a → a ∉ path.marked)
      (hl : ∀ u ∈ left, heap.Copies (maxValueNestingDepth - (path.depth + 1)) u)
      (hw : MeetsNullArray heap (path.push c.address) w) : MeetsNullArray heap path raw

/-- A valid value is not `NULL`. -/
theorem view_ne_null (hv : heap.Valid raw) : heap.view raw ≠ .null := by
  cases raw with
  | number d =>
    rw [Heap.view, show janetType (.number d) = .number from hv]
    simp
  | box t q =>
    have hpos : ∀ {see : Nat → View Janet Address JanetValue}, 0 < q → (∀ p, see p ≠ .null) →
        behind (pointer q) see ≠ .null := by
      intro see hq hsee
      rw [pointer_pos hq]
      exact hsee q
    cases t with
    | string | symbol | keyword | tuple | array | struct | table => exact hpos hv.1 (by simp [Heap.node])
    | _ => simp [Heap.view, janetType_box]

/-- **In a sound heap what is exposed is an array without a block.** -/
theorem exposed_iff (hs : heap.Sound) (hv : heap.Valid raw) :
    Exposed copyRules heap.view path raw ↔ heap.MeetsNullArray path raw := by
  constructor
  · intro h
    induction h with
    | null h => exact absurd h (view_ne_null hv)
    | bare h hd hf =>
      obtain ⟨c, hat, rfl, hblock, -, -⟩ := view_eq_node h
      obtain ⟨p, rfl, hnull⟩ := array_of_no_block hs (allocated_of_valid hv hat) hblock.symm
      exact .array hat hnull hd (hf _ rfl)
    | @inside path v w id left right build h hd hf hl _ ih =>
      obtain ⟨c, hat, rfl, hblock, hk, -⟩ := view_eq_node h
      have hw : heap.Valid w := valid_children hs (allocated_of_valid hv hat) w (by rw [← hk]; simp)
      exact .inside hat hblock.symm hk.symm hd hf hl (ih hw)
  · intro h
    induction h with
    | @array path raw p hat hnull hd hf =>
      have hview : heap.view raw = .node (some (.array p)) false (heap.children (.array p)) .array := by
        rw [view_of_isAt heap hat, Heap.node, show heap.hasBlock (.array p) = false by simp [Heap.hasBlock, hnull]]
        rfl
      refine .bare hview hd fun a ha => ?_
      obtain rfl := Option.some.inj ha
      exact hf
    | @inside path raw w c left right hat hblock hk hd hf hl _ ih =>
      have hw : heap.Valid w := valid_children hs (allocated_of_valid hv hat) w (by rw [hk]; simp)
      have hview : heap.view raw = .node c.address true (left ++ w :: right) c.build := by
        rw [view_of_isAt heap hat, Heap.node, hblock, hk]
      exact .inside hview hd hf hl (ih hw)

/-- Copying a valid value out of a sound heap traps exactly at an array without a block. -/
theorem copyOut_traps_iff (hs : heap.Sound) (hv : heap.Valid raw) :
    (∃ t, copyOut heap raw = .traps t) ↔ heap.MeetsNullArray .empty raw := by
  rw [← exposed_iff hs hv]
  simp only [copyOut_traps]
  exact walk_traps_iff (view_identifies heap) above_empty (Nat.le_refl _) (Nat.zero_le _)

/-- **Over reachable heaps, copying a value out returns or throws a copy error exactly when it meets no array without
a block.** -/
theorem copyOut_safe_iff {hashing : Heap → Hashing} (hr : Reachable hashing heap) (hv : heap.Valid raw) :
    ((∃ v, copyOut heap raw = .returns v) ∨ ∃ e, copyOut heap raw = .throws e ∧ e.phase = .copy) ↔
      ¬heap.MeetsNullArray .empty raw := by
  rw [← copyOut_traps_iff (reachable_sound hr) hv]
  have hx := copyOut_explains heap raw
  cases ho : copyOut heap raw with
  | returns v => exact ⟨fun _ ⟨t, ht⟩ => (nomatch ht), fun _ => Or.inl ⟨v, rfl⟩⟩
  | throws e =>
    rw [ho] at hx
    refine ⟨fun _ ⟨t, ht⟩ => (nomatch ht), fun _ => Or.inr ⟨e, rfl, ?_⟩⟩
    rcases hx with ⟨rfl, _⟩ | ⟨rfl, _⟩ <;> rfl
  | traps t =>
    refine ⟨fun h => ?_, fun h => absurd ⟨t, rfl⟩ h⟩
    rcases h with ⟨v, h⟩ | ⟨e, h, _⟩ <;> cases h
  | unfinished => rw [ho] at hx; exact hx.elim

end Trap

/-! ## Two empty arrays -/

/-- Hashing for heaps without dictionaries. -/
def noHashing : Hashing := ⟨fun _ => 0#32, fun _ _ => false, fun _ _ => 0⟩

/-- The heap of a script that makes one array. -/
def oneArray (a : JanetArray) : Heap := (Heap.empty.allocArray a).1

theorem reachable_arrayNew (capacity : Int) : Reachable (fun _ => noHashing) (oneArray (janetArray capacity)) :=
  @Reachable.step _ _ _ (.arrayNew capacity) .start (by simp [Operation.args]) trivial rfl

theorem reachable_arrayN : Reachable (fun _ => noHashing) (oneArray (janetArrayN [])) :=
  @Reachable.step _ _ _ (.arrayN []) .start (by simp [Operation.args]) trivial rfl

/-- `(array)` copies out. -/
theorem copyOut_safe_array :
    ((∃ v, @copyOut ⟨id⟩ (oneArray (janetArrayN [])) (janetWrapArray 1) = .returns v) ∨
      ∃ e, @copyOut ⟨id⟩ (oneArray (janetArrayN [])) (janetWrapArray 1) = .throws e ∧ e.phase = .copy) ↔
      ¬@Heap.MeetsNullArray ⟨id⟩ (oneArray (janetArrayN [])) .empty (janetWrapArray 1) :=
  @copyOut_safe_iff ⟨id⟩ _ _ _ reachable_arrayN ⟨by decide, by decide⟩

/-- `(array/new 0)` traps. -/
theorem copyOut_traps_arrayNew :
    ¬∀ (heap : Heap) (raw : Janet), Reachable (fun _ => noHashing) heap → heap.Valid raw →
      (∃ v, @copyOut ⟨id⟩ heap raw = .returns v) ∨ ∃ e, @copyOut ⟨id⟩ heap raw = .throws e ∧ e.phase = .copy := by
  intro h
  have htrap : @copyOut ⟨id⟩ (oneArray (janetArray 0)) (janetWrapArray 1) = .traps .null := rfl
  rcases h _ (janetWrapArray 1) (reachable_arrayNew 0) ⟨by decide, by decide⟩ with ⟨v, hv⟩ | ⟨e, he, _⟩
  · rw [htrap] at hv; cases hv
  · rw [htrap] at he; cases he

end SwiftJanet
