import SwiftJanet.Copy.Represents

/-!
# `janet_equals` on representations

`Represents.answers`: on raw values that represent Swift values `janet_equals` has an answer, and equates them only
when the Swift values are equal. So different Swift values are told apart (`Represents.toldApart`), whether Janet
compares them by content or by address.
-/

namespace SwiftJanet

open Lib JanetValue

variable [CanonicalForm] {code : DictionaryCode} {heap : Heap} {lo lo' n p q : Nat} {v w : JanetValue} {a b x y : Janet}

/-! ## Answers -/

/-- From `n` levels on `janet_equals` has an answer, which is yes only for equal values. -/
def Answer (heap : Heap) (n : Nat) (v w : JanetValue) (a b : Janet) : Prop :=
  ∃ answer, heap.janetEquals n a b = some answer ∧ (answer = true → equal v w = true)

/-- `raw` represents `v`, and compares with every representation as `v` compares. -/
def Comparable (code : DictionaryCode) (heap : Heap) (lo n : Nat) (v : JanetValue) (raw : Janet) : Prop :=
  Represents code heap lo v raw ∧ ∀ {w b lo'}, Represents code heap lo' w b → Lawful w → Answer heap n v w raw b

/-- Leaves compare by content, or by an address that stands for the content. -/
theorem answer_leaf (ha : heap.RepresentsLeaf v a) (hb : heap.RepresentsLeaf w b) (ht : janetType a = janetType b) :
    Answer heap n v w a b := by
  have interned : ∀ {s t : Text} {p q : Nat}, heap.HasBytes p s.utf8 → heap.HasBytes q t.utf8 →
      (p == q) = true → s.equal t = true := by
    intro s t p q hp hq hpq
    obtain rfl := eq_of_beq hpq
    rw [Text.utf8_injective (hp.2.2.symm.trans hq.2.2)]
    exact Text.equal_refl t
  cases ha with
  | nil =>
    cases hb with
    | nil => exact ⟨true, janetEquals_nil, fun _ => rfl⟩
    | number h => rw [janetWrapNumber, janetType_number h] at ht; cases ht
    | _ => cases ht
  | boolean c =>
    cases hb with
    | boolean d => exact ⟨_, janetEquals_boolean, fun h => h⟩
    | number h => rw [janetWrapNumber, janetType_number h] at ht; cases ht
    | _ => cases ht
  | number hc =>
    rw [janetWrapNumber, janetType_number hc] at ht
    cases hb with
    | number hd => exact ⟨_, janetEquals_number hc hd, fun h => h⟩
    | _ => cases ht
  | @string s p hp =>
    cases hb with
    | @string t q hq =>
      refine ⟨_, janetEquals_string hp.1 hq.1, fun h => ?_⟩
      rcases Bool.or_eq_true _ _ ▸ h with h | h
      · exact interned hp hq h
      · rw [hp.2.2, hq.2.2] at h
        rw [Text.utf8_injective (eq_of_beq h)]
        exact Text.equal_refl t
    | number h => rw [janetWrapNumber, janetType_number h] at ht; cases ht
    | _ => cases ht
  | keyword hp =>
    cases hb with
    | keyword hq => exact ⟨_, janetEquals_address (Or.inl rfl) hp.1 hq.1, interned hp hq⟩
    | number h => rw [janetWrapNumber, janetType_number h] at ht; cases ht
    | _ => cases ht
  | symbol hp =>
    cases hb with
    | symbol hq => exact ⟨_, janetEquals_address (Or.inr (Or.inl rfl)) hp.1 hq.1, interned hp hq⟩
    | number h => rw [janetWrapNumber, janetType_number h] at ht; cases ht
    | _ => cases ht

/-- With an answer for each pair of elements there is an answer for the lists. -/
theorem answer_each {R R' : JanetValue → Janet → Prop} {xs ys : List JanetValue} {raws raws' : List Janet}
    (hx : List.Forall₂ R xs raws) (hy : List.Forall₂ R' ys raws')
    (h : ∀ x a y b, x ∈ xs → y ∈ ys → R x a → R' y b → Answer heap n x y a b) (hlen : raws.length = raws'.length) :
    ∃ answer, equalsEach (heap.janetEquals n) raws raws' = some answer ∧
      (answer = true → List.Forall₂ (fun x y => equal x y = true) xs ys) := by
  induction hx generalizing ys raws' with
  | nil =>
    cases hy with
    | nil => exact ⟨true, rfl, fun _ => .nil⟩
    | cons _ _ => cases hlen
  | cons hxr _ ih =>
    cases hy with
    | nil => cases hlen
    | cons hys hy =>
      obtain ⟨answer, ha, hequal⟩ := h _ _ _ _ List.mem_cons_self List.mem_cons_self hxr hys
      cases answer with
      | false => exact ⟨false, by rw [equalsEach, ha], fun h => (nomatch h)⟩
      | true =>
        obtain ⟨answer, hrest, hall⟩ := ih hy (fun x a y b hx hy => h x a y b (List.mem_cons_of_mem _ hx)
          (List.mem_cons_of_mem _ hy)) (by simpa using hlen)
        exact ⟨answer, by rw [equalsEach, ha]; exact hrest, fun h => .cons (hequal rfl) (hall h)⟩

/-! ## Structs -/

section Structs

variable {s t : JanetStruct} {es fs : List (JanetValue × JanetValue)} {kvs kvs' : List JanetKV} {kv : JanetKV}

omit [CanonicalForm] in
/-- A cell that is not live is empty, and the others hold entries. -/
theorem cell_cases (hs : code.StructHolds s kvs) (hkv : kv ∈ s.data) :
    kv = ⟨janetWrapNil, janetWrapNil⟩ ∨ kv ∈ kvs := by
  by_cases hlive : kv.isLive = true
  · exact Or.inr (hs.entries.mem_iff.mp (List.mem_filter.mpr ⟨hkv, hlive⟩))
  · exact Or.inl (hs.empty kv hkv (by simpa using hlive))

omit [CanonicalForm] in
theorem mem_data (hs : code.StructHolds s kvs) (hkv : kv ∈ kvs) : kv ∈ s.data ∧ kv.isLive = true :=
  List.mem_filter.mp (hs.entries.mem_iff.mpr hkv)

omit [CanonicalForm] in
/-- What stands in the cells of a struct: nil, or what represents a key or a value. -/
theorem mem_cells {P : JanetValue → Janet → Prop} (hs : code.StructHolds s kvs)
    (h : List.Forall₂ (fun e kv => P e.1 kv.key ∧ P e.2 kv.value) es kvs) (hx : x ∈ alternate s.data) :
    x = janetWrapNil ∨ ∃ w ∈ es.flatMap (fun e => [e.1, e.2]), P w x := by
  obtain ⟨kv, hkv, hx⟩ := List.mem_flatMap.mp hx
  simp only [List.mem_cons, List.not_mem_nil, or_false] at hx
  rcases cell_cases hs hkv with rfl | hkv
  · rcases hx with rfl | rfl <;> exact Or.inl rfl
  · obtain ⟨e, he, hk, hv⟩ := Assoc.partner_of_mem h.flip hkv
    rcases hx with rfl | rfl
    · exact Or.inr ⟨e.1, mem_keys he, hk⟩
    · exact Or.inr ⟨e.2, mem_values he, hv⟩

/-- Structs of the same length have an answer, cell by cell. -/
theorem cells_answer {R R' : JanetValue → Janet → Prop} (hs : code.StructHolds s kvs) (ht : code.StructHolds t kvs')
    (hlen : s.length = t.length) (h : List.Forall₂ (fun e kv => R e.1 kv.key ∧ R e.2 kv.value) es kvs)
    (h' : List.Forall₂ (fun f kv => R' f.1 kv.key ∧ R' f.2 kv.value) fs kvs')
    (htype : ∀ {w x}, R w x → janetChecktype x .nil = (janetType x == .nil))
    (hpair : ∀ x a y b, x ∈ es.flatMap (fun e => [e.1, e.2]) → y ∈ fs.flatMap (fun e => [e.1, e.2]) → R x a → R' y b →
      Answer heap n x y a b) :
    ∃ answer, equalsEach (heap.janetEquals n) (alternate s.data) (alternate t.data) = some answer ∧
      (answer = true → DictEqual es fs) := by
  have hdata : s.data.length = t.data.length := by
    rw [hs.capacity, ht.capacity, ← hs.length, ← ht.length, hlen]
  have halt : (alternate s.data).length = (alternate t.data).length := by simp [alternate, hdata]
  have hanswers : ∀ p ∈ (alternate s.data).zip (alternate t.data), (heap.janetEquals n p.1 p.2).isSome := by
    rintro ⟨x, y⟩ hxy
    obtain ⟨hx, hy⟩ := List.of_mem_zip hxy
    rcases mem_cells hs h hx with rfl | ⟨w, hw, hrep⟩
    · rw [janetEquals_nil_left]; rfl
    · rcases mem_cells ht h' hy with rfl | ⟨w', hw', hrep'⟩
      · rw [janetEquals_nil_right]; rfl
      · obtain ⟨answer, ha, _⟩ := hpair w x w' y hw hw' hrep hrep'
        rw [ha]; rfl
  obtain ⟨answer, ha⟩ := Option.isSome_iff_exists.mp (equalsEach_isSome halt hanswers)
  refine ⟨answer, ha, ?_⟩
  rintro rfl
  have hcells := Assoc.forall₂_flatMap_pair.mp (equalsEach_true ha halt)
  refine ⟨by rw [h.length_eq, h'.length_eq, ← hs.length, ← ht.length, hlen], fun e he => ?_⟩
  obtain ⟨kv, hkv, hk, hv⟩ := Assoc.partner_of_mem h he
  obtain ⟨hdata, hlive⟩ := mem_data hs hkv
  obtain ⟨kv', hkv', hkey, hvalue⟩ := Assoc.partner_of_mem hcells hdata
  rcases cell_cases ht hkv' with rfl | hkv'
  · -- a live key is not nil
    rw [janetEquals_nil_right] at hkey
    rw [JanetKV.isLive, htype hk, Option.some.inj hkey] at hlive
    cases hlive
  · obtain ⟨f, hf, hk', hv'⟩ := Assoc.partner_of_mem h'.flip hkv'
    obtain ⟨answer, ha, hequal⟩ := hpair _ _ _ _ (mem_keys he) (mem_keys hf) hk hk'
    obtain ⟨answer', ha', hequal'⟩ := hpair _ _ _ _ (mem_values he) (mem_values hf) hv hv'
    rw [hkey] at ha
    rw [hvalue] at ha'
    exact ⟨f, hf, hequal (Option.some.inj ha).symm, hequal' (Option.some.inj ha').symm⟩

end Structs

/-! ## Values -/

omit [CanonicalForm] in
/-- Raw values of one type represent leaves, or containers. -/
theorem isLeaf_congr (h : Represents code heap lo v a) (h' : Represents code heap lo' w b)
    (ht : janetType a = janetType b) : v.isLeaf = w.isLeaf := by
  rw [isLeaf_eq, isLeaf_eq, ← h.type_eq, ← h'.type_eq, ht]

/-- Two tuples are equal when they are one, or when their elements are. -/
theorem answer_tuple {R R' : JanetValue → Janet → Prop} {xs ys : List JanetValue} (hp : 0 < p) (hq : 0 < q)
    (hsame : p = q → equal (tuple xs) (tuple ys) = true) (hx : List.Forall₂ R xs (heap.tuples.get p).data)
    (hy : List.Forall₂ R' ys (heap.tuples.get q).data)
    (hpair : ∀ x a y b, x ∈ xs → y ∈ ys → R x a → R' y b → Answer heap n x y a b) :
    Answer heap (n + 1) (tuple xs) (tuple ys) (janetWrapTuple p) (janetWrapTuple q) := by
  rw [Answer, janetEquals_tuple hp hq]
  split
  · next h => exact ⟨true, rfl, fun _ => hsame h⟩
  · split
    · next h =>
      simp only [Heap.tupleHeadsEqual, Bool.and_eq_true, beq_iff_eq] at h
      obtain ⟨answer, ha, hequal⟩ := answer_each hx hy hpair h.2
      exact ⟨answer, ha, fun h => equal_tuple.mpr ⟨ys, rfl, hequal h⟩⟩
    · exact ⟨false, rfl, fun h => (nomatch h)⟩

/-- Two structs are equal when they are one, or when their cells are. -/
theorem answer_struct {R R' : JanetValue → Janet → Prop} {es fs : List (JanetValue × JanetValue)}
    {kvs kvs' : List JanetKV} (hp : 0 < p) (hq : 0 < q)
    (hsame : p = q → equal (struct es) (struct fs) = true) (hs : code.StructHolds (heap.structs.get p) kvs)
    (ht : code.StructHolds (heap.structs.get q) kvs')
    (hx : List.Forall₂ R (es.flatMap fun e => [e.1, e.2]) (alternate kvs))
    (hy : List.Forall₂ R' (fs.flatMap fun e => [e.1, e.2]) (alternate kvs'))
    (htype : ∀ {w x}, R w x → janetChecktype x .nil = (janetType x == .nil))
    (hpair : ∀ x a y b, x ∈ es.flatMap (fun e => [e.1, e.2]) → y ∈ fs.flatMap (fun e => [e.1, e.2]) → R x a → R' y b →
      Answer heap n x y a b) :
    Answer heap (n + 1) (struct es) (struct fs) (janetWrapStruct p) (janetWrapStruct q) := by
  rw [Answer, janetEquals_struct hp hq]
  split
  · next h => exact ⟨true, rfl, fun _ => hsame h⟩
  · split
    · next h =>
      simp only [Heap.structHeadsEqual, Bool.and_eq_true, beq_iff_eq] at h
      obtain ⟨answer, ha, hequal⟩ := cells_answer hs ht h.1 (Assoc.forall₂_flatMap_pair.mp hx)
        (Assoc.forall₂_flatMap_pair.mp hy) htype hpair
      refine ⟨answer, ?_, fun h => equal_struct.mpr ⟨fs, rfl, hequal h⟩⟩
      simpa only [Heap.structNodes, hs.proto, ht.proto, Option.map_none, Option.toList_none, List.append_nil] using ha
    · exact ⟨false, rfl, fun h => (nomatch h)⟩

/-- Arrays and tables are equal when they are one. -/
theorem answer_address {t : JanetType} (ht : t = .array ∨ t = .table) (hp : 0 < p) (hq : 0 < q)
    (hsame : p = q → equal v w = true) : Answer heap n v w (.box t p) (.box t q) :=
  ⟨_, janetEquals_address (by tauto) hp hq, fun h => hsame (eq_of_beq h)⟩

/-- Two containers are equal when they are one, or, tuples and structs, when their parts are. -/
theorem answer_container {R R' : JanetValue → Janet → Prop} {c d : Container} {raws raws' : List Janet}
    (hk : c.isKindOf v = true) (hk' : d.isKindOf w = true) (ho : heap.Owns lo c) (ho' : heap.Owns lo' d)
    (hsame : c = d → equal v w = true) (hs : heap.Spells code c raws) (hs' : heap.Spells code d raws')
    (hparts : List.Forall₂ R v.parts raws) (hparts' : List.Forall₂ R' w.parts raws')
    (htype : ∀ {w x}, R w x → janetChecktype x .nil = (janetType x == .nil))
    (hpair : ∀ x r y s, x ∈ v.parts → y ∈ w.parts → R x r → R' y s → Answer heap n x y r s) :
    Answer heap (n + 1) v w c.word d.word := by
  by_cases ht : janetType c.word = janetType d.word
  · cases c with
    | tuple p =>
      cases v with
      | tuple xs =>
        cases d with
        | tuple q =>
          cases w with
          | tuple ys =>
            obtain rfl : (heap.tuples.get p).data = raws := hs
            obtain rfl : (heap.tuples.get q).data = raws' := hs'
            exact answer_tuple ho.1 ho'.1 (fun h => hsame (congrArg Container.tuple h)) hparts hparts' hpair
          | _ => cases hk'
        | _ => cases ht
      | _ => cases hk
    | array p =>
      cases d with
      | array q => exact answer_address (Or.inl rfl) ho.1 ho'.1 fun h => hsame (congrArg Container.array h)
      | _ => cases ht
    | struct p =>
      cases v with
      | struct es =>
        cases d with
        | struct q =>
          cases w with
          | struct fs =>
            obtain ⟨kvs, rfl, hs⟩ := hs
            obtain ⟨kvs', rfl, hs'⟩ := hs'
            exact answer_struct ho.1 ho'.1 (fun h => hsame (congrArg Container.struct h)) hs hs' hparts hparts' htype
              hpair
          | _ => cases hk'
        | _ => cases ht
      | _ => cases hk
    | table p =>
      cases d with
      | table q => exact answer_address (Or.inr rfl) ho.2.1 ho'.2.1 fun h => hsame (congrArg Container.table h)
      | _ => cases ht
  · exact ⟨false, janetEquals_of_type_ne ht, fun h => (nomatch h)⟩

/-- **On representations `janet_equals` has an answer, which is yes only for equal values.** -/
theorem Represents.answers (h : Represents code heap lo v a) (hv : Lawful v) (hn : v.depth ≤ n)
    (h' : Represents code heap lo' w b) (hw : Lawful w) : Answer heap n v w a b := by
  by_cases ht : janetType a = janetType b
  swap
  · exact ⟨false, janetEquals_of_type_ne ht, fun h => (nomatch h)⟩
  have hleaf := isLeaf_congr h h' ht
  induction h generalizing n lo' w b with
  | @leaf v a ha =>
    cases h' with
    | leaf hb => exact answer_leaf ha hb ht
    | container hk =>
      rw [ha.isLeaf, isLeaf_of_isKindOf hk] at hleaf
      cases hleaf
  | @container v c raws hk ho hs hlen hsub ih =>
    have hrep : Represents code heap lo v c.word := .container hk ho hs hlen hsub
    cases h' with
    | leaf hb =>
      rw [hb.isLeaf, isLeaf_of_isKindOf hk] at hleaf
      cases hleaf
    | @container w d raws' hk' ho' hs' hlen' hsub' =>
      have hrep' : Represents code heap lo' w d.word := .container hk' ho' hs' hlen' hsub'
      obtain ⟨m, hm⟩ := depth_of_isKindOf hk
      obtain ⟨n, rfl⟩ : ∃ n', n = n' + 1 := ⟨n - 1, by omega⟩
      have hparts : List.Forall₂ (Comparable code heap lo n) v.parts raws := by
        refine List.forall₂_iff_zip.mpr ⟨hlen, fun {x r} hxr => ⟨hsub _ hxr, fun {y s lo''} hy hly => ?_⟩⟩
        have hx : x ∈ v.parts := (List.of_mem_zip hxr).1
        by_cases htype : janetType r = janetType s
        · exact ih (x, r) hxr (hv.part hx) (depth_parts hn x hx) hy hly htype (isLeaf_congr (hsub _ hxr) hy htype)
        · exact ⟨false, janetEquals_of_type_ne htype, fun h => (nomatch h)⟩
      exact answer_container hk hk' ho ho' (fun h => hrep.unique (h ▸ hrep') hv hw) hs hs' hparts
        (forall₂_represents hlen' hsub') (fun h => h.1.checktype_eq .nil)
        fun x r y s _ hy hx hrep => hx.2 hrep (hw.part hy)

/-- Different values are told apart when `janet_equals` has an answer both ways round. -/
theorem toldApart_of_answers (hv : Lawful v) (hw : Lawful w) (h : ∀ n, v.depth ≤ n → Answer heap n v w a b)
    (h' : ∀ n, w.depth ≤ n → Answer heap n w v b a) (hne : equal v w = false) : heap.ToldApart a b := by
  have hne' : equal w v = false := by
    by_contra htrue
    rw [equal_symm hw hv (by simpa using htrue)] at hne
    cases hne
  obtain ⟨answer, ha, hequal⟩ := h _ (Nat.le_max_left v.depth w.depth)
  obtain ⟨answer', ha', hequal'⟩ := h' _ (Nat.le_max_right v.depth w.depth)
  refine ⟨max v.depth w.depth, ?_, ?_⟩
  · cases answer with
    | false => exact ha
    | true => rw [hequal rfl] at hne; cases hne
  · cases answer' with
    | false => exact ha'
    | true => rw [hequal' rfl] at hne'; cases hne'

/-- **Different values are told apart.** -/
theorem Represents.toldApart (h : Represents code heap lo v a) (hv : Lawful v) (h' : Represents code heap lo' w b)
    (hw : Lawful w) (hne : equal v w = false) : heap.ToldApart a b :=
  toldApart_of_answers hv hw (fun _ hn => h.answers hv hn h' hw) (fun _ hn => h'.answers hw hn h hv) hne

end SwiftJanet
