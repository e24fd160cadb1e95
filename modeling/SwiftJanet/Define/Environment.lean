import SwiftJanet.Copy.Dictionaries
import SwiftJanet.Define.Entry

/-!
# Environments

A script looks up a name in the table of an environment and in the prototypes behind it.

- `KeyLaws hashing K`: the values that `K heap` admits as keys are lawful, and what is new in the heap changes nothing
  about them;
- `Heap.Environment`: such keys stand in all tables that a lookup goes through;
- `Environment.binding_eq`: what a name is bound to does not depend on when its symbol is interned;
- `Environment.put`, `define_spec`: a definition binds the symbol of its name and no other one.
-/

namespace SwiftJanet

open Lib Lib.Probing

/-- Equality and hash of the keys that `K` admits. They look at nothing that changes, so they stay the same while the
heap keeps what it has; symbols are admitted when they are interned. -/
structure KeyLaws (hashing : Heap → Hashing) (K : Heap → Janet → Prop) : Prop extends NameLaws hashing where
  lawful : ∀ heap, LawfulKeys (hashing heap) (K heap)
  symbol : ∀ {heap p}, p ∈ heap.symcache → K heap (janetWrapSymbol p)
  interned : ∀ {heap x}, K heap x → janetType x = .symbol → ∃ p ∈ heap.symcache, janetUnwrapPointer x = pointer p
  frame : ∀ {heap heap' p x}, heap.Keeps p heap' → K heap x → K heap' x ∧ (hashing heap').hash x = (hashing heap).hash x ∧
    ∀ y, K heap y → (hashing heap').equals y x = (hashing heap).equals y x

/-- The tables in `S` are those that a lookup from `env` goes through, and perhaps others. -/
structure Heap.Environment (hashing : Heap → Hashing) (K : Heap → Janet → Prop) (heap : Heap) (env : Nat)
    (S : Nat → Prop) : Prop where
  interned : heap.Interned
  root : S env
  pos : ∀ {t}, S t → 0 < t
  lt : ∀ {t}, S t → t < heap.tables.next
  cells : ∀ {t}, S t → CellsInv (hashing heap) (K heap) (heap.tables.get t).cells
  proto : ∀ {t q}, S t → (heap.tables.get t).proto = some q → S q

section Environment

variable {hashing : Heap → Hashing} {K : Heap → Janet → Prop} {heap heap' : Heap} {env e p q t : Nat} {S : Nat → Prop}
  {bytes : List UInt8} {x value : Janet} {cells : List JanetKV}

/-- A lookup in a block of cells does not see what is new in the heap. -/
theorem KeyLaws.lookup_frame (hl : KeyLaws hashing K) (hk : heap.Keeps p heap') (hc : CellsInv (hashing heap) (K heap) cells)
    (hx : K heap x) : lookupCells (hashing heap') cells x = lookupCells (hashing heap) cells x :=
  lookupCells_congr (hl.frame hk hx).2.1 fun _ hkv => (hl.frame hk hx).2.2 _ (keys_of_inv hc hkv)

theorem KeyLaws.cells_frame (hl : KeyLaws hashing K) (hk : heap.Keeps p heap')
    (hc : CellsInv (hashing heap) (K heap) cells) : CellsInv (hashing heap') (K heap') cells :=
  inv_congr hc (fun _ hkv => (hl.frame hk (keys_of_inv hc hkv)).1) (fun _ hkv => (hl.frame hk (keys_of_inv hc hkv)).2.1)
    fun _ hkv _ hkv' => (hl.frame hk (keys_of_inv hc hkv')).2.2 _ (keys_of_inv hc hkv)

theorem symbol_equals_iff (hn : NameLaws hashing) (hp : 0 < p) :
    (hashing heap).equals (janetWrapSymbol p) (janetWrapSymbol q) = true ↔ p = q := by
  rw [hn.symbol_equals]
  show (JanetType.symbol == JanetType.symbol && (pointer p == pointer q)) = true ↔ _
  rw [beq_self_eq_true, Bool.true_and]
  exact pointer_beq p q hp

namespace Heap.Environment

/-- What only adds to the heap keeps the environment. -/
theorem frame (he : heap.Environment hashing K env S) (hl : KeyLaws hashing K) (hk : heap.Keeps 0 heap') :
    heap'.Environment hashing K env S := by
  have hget : ∀ {t}, S t → heap'.tables.get t = heap.tables.get t := fun hS =>
    hk.tables.get_eq _ (he.pos hS) (he.lt hS) (Nat.ne_of_gt (he.pos hS))
  refine ⟨hk.interned he.interned, he.root, he.pos, fun hS => Nat.lt_of_lt_of_le (he.lt hS) hk.tables.next_le,
    fun hS => ?_, fun hS hq => ?_⟩
  · rw [hget hS]
    exact hl.cells_frame hk (he.cells hS)
  · rw [hget hS] at hq
    exact he.proto hS hq

/-- A lookup of an interned symbol does not see what is new in the heap. -/
theorem get_frame (he : heap.Environment hashing K env S) (hl : KeyLaws hashing K) (hk : heap.Keeps 0 heap')
    (hp : p ∈ heap.symcache) : ∀ {n t}, S t → heap'.janetTableGet (hashing heap') (janetWrapSymbol p) n (some t) =
      heap.janetTableGet (hashing heap) (janetWrapSymbol p) n (some t)
  | 0, _, _ => rfl
  | n + 1, t, hS => by
    have hget : heap'.tables.get t = heap.tables.get t :=
      hk.tables.get_eq _ (he.pos hS) (he.lt hS) (Nat.ne_of_gt (he.pos hS))
    rw [janetTableGet_succ, janetTableGet_succ, hget, hl.lookup_frame hk (he.cells hS) (hl.symbol hp)]
    congr 1
    cases hproto : (heap.tables.get t).proto with
    | none => cases n <;> rfl
    | some q => exact get_frame he hl hk hp (he.proto hS hproto)

/-- No table has a symbol that is interned only later. -/
theorem get_new (he : heap.Environment hashing K env S) (hl : KeyLaws hashing K) (hk : heap.Keeps 0 heap')
    (hp : p ∈ heap'.symcache) (hnew : p ∉ heap.symcache) : ∀ {n t}, S t →
      heap'.janetTableGet (hashing heap') (janetWrapSymbol p) n (some t) = janetWrapNil
  | 0, _, _ => rfl
  | n + 1, t, hS => by
    have hget : heap'.tables.get t = heap.tables.get t :=
      hk.tables.get_eq _ (he.pos hS) (he.lt hS) (Nat.ne_of_gt (he.pos hS))
    have hc := he.cells hS
    have hnone : lookupCells (hashing heap') (heap.tables.get t).cells (janetWrapSymbol p) = none := by
      cases hlookup : lookupCells (hashing heap') (heap.tables.get t).cells (janetWrapSymbol p) with
      | none => rfl
      | some v =>
        obtain ⟨kv, hkv, _, heq⟩ := (lookup_eq_some (hl.lawful heap') (hl.cells_frame hk hc) (hl.symbol hp)).mp hlookup
        rw [hl.symbol_equals, Bool.and_eq_true, beq_iff_eq, beq_iff_eq] at heq
        obtain ⟨q, hq, hptr⟩ := hl.interned (keys_of_inv hc hkv) heq.1
        rw [heq.2, pointer_pos (heap'.interned p hp).1, pointer_pos (heap.interned q hq).1, Option.some.injEq] at hptr
        exact absurd (hptr ▸ hq) hnew
    rw [janetTableGet_succ, hget, hnone, Option.getD_none]
    cases hproto : (heap.tables.get t).proto with
    | none => cases n <;> rfl
    | some q => exact get_new he hl hk hp hnew (he.proto hS hproto)

/-- **The binding of a name** is what its symbol has, whenever that is interned. -/
theorem binding_eq (he : heap.Environment hashing K env S) (hl : KeyLaws hashing K) (hk : heap.Keeps 0 heap')
    (hp : p ∈ heap'.symcache) (hbytes : heap'.strings.get p = bytes) :
    heap.binding hashing env bytes =
      heap'.janetTableGet (hashing heap') (janetWrapSymbol p) janetMaxProtoDepth (some env) := by
  have hstrings : ∀ {heap'' : Heap} {q : Nat}, heap.Keeps 0 heap'' → q ∈ heap.symcache →
      heap''.strings.get q = heap.strings.get q := fun hk hq =>
    hk.strings.get_eq _ (heap.interned _ hq).1 (heap.interned _ hq).2 (Nat.ne_of_gt (heap.interned _ hq).1)
  by_cases hold : ∃ q ∈ heap.symcache, heap.strings.get q = bytes
  · obtain ⟨q, hq, hqbytes⟩ := hold
    obtain rfl : q = p := (hk.interned he.interned).unique (hk.symbols q hq) hp (by
      rw [hstrings hk hq, hqbytes, hbytes])
    rw [he.get_frame hl hk hq he.root, ← hqbytes, Heap.binding, janetSymbol_of_mem he.interned hq]
  · have hnew : ∀ {heap'' : Heap} {q : Nat}, heap.Keeps 0 heap'' → heap''.strings.get q = bytes → q ∉ heap.symcache :=
      fun hk hb hq => hold ⟨_, hq, by rw [← hstrings hk hq, hb]⟩
    have hspec := (janetSymbol_spec heap bytes).2
    rw [he.get_new hl hk hp (hnew hk hbytes) he.root, Heap.binding]
    exact he.get_new hl (keeps_janetSymbol bytes) (janetSymbol_mem bytes) (hnew (keeps_janetSymbol bytes) hspec.2.2) he.root

/-- What only adds to the heap changes no binding. -/
theorem binding_frame (he : heap.Environment hashing K env S) (hl : KeyLaws hashing K) (hk : heap.Keeps 0 heap')
    (bytes : List UInt8) : heap'.binding hashing env bytes = heap.binding hashing env bytes := by
  have hk' := @keeps_janetSymbol heap' bytes
  have hbytes := (janetSymbol_spec heap' bytes).2.2.2
  rw [(he.frame hl hk).binding_eq hl hk' (janetSymbol_mem bytes) hbytes,
    he.binding_eq hl (hk.trans hk') (janetSymbol_mem bytes) hbytes]

/-- A name without a symbol is not bound. -/
theorem binding_new (he : heap.Environment hashing K env S) (hl : KeyLaws hashing K)
    (h : ∀ q ∈ heap.symcache, heap.strings.get q ≠ bytes) : heap.binding hashing env bytes = janetWrapNil := by
  have hk := @keeps_janetSymbol heap bytes
  have hbytes := (janetSymbol_spec heap bytes).2.2.2
  rw [he.binding_eq hl hk (janetSymbol_mem bytes) hbytes]
  refine he.get_new hl hk (janetSymbol_mem bytes) (fun hmem => h _ hmem ?_) he.root
  obtain ⟨hpos, hlt⟩ := heap.interned _ hmem
  rw [← hk.strings.get_eq _ hpos hlt (Nat.ne_of_gt hpos), hbytes]

/-- Putting a symbol into the environment: it gets the value, and lookups of the others find what they found. -/
theorem put (he : heap.Environment hashing K env S) (hl : KeyLaws hashing K) (hp : p ∈ heap.symcache)
    (hv : janetChecktype value .nil = false)
    (hput : tablePut (vmDictionaries hashing) env (janetWrapSymbol p) value heap = (.returns (), heap')) :
    heap'.symcache = heap.symcache ∧ heap'.strings = heap.strings ∧ heap'.Environment hashing K env S ∧
      (∀ n, heap'.janetTableGet (hashing heap') (janetWrapSymbol p) (n + 1) (some env) = value) ∧
      ∀ q ∈ heap.symcache, q ≠ p → ∀ n t, S t → heap'.janetTableGet (hashing heap') (janetWrapSymbol q) n (some t) =
        heap.janetTableGet (hashing heap) (janetWrapSymbol q) n (some t) := by
  have hk : heap.Keeps env heap' := Heap.Keeps.of_run (tablePut_keeps _) hput
  have hs : Storable (janetWrapSymbol p) value := ⟨rfl, fun h => (nomatch h), hv⟩
  unfold tablePut at hput
  cases hu : (vmDictionaries hashing).tablePut heap (heap.tables.get env) (janetWrapSymbol p) value with
  | none =>
    rw [hu] at hput
    cases hput
  | some u =>
    rw [hu] at hput
    cases hput
    obtain ⟨hinv, hproto, hlookup⟩ := inv_put (hl.lawful heap) (he.cells he.root) (hl.symbol hp) hs hu
    have henv : (heap.tables.set env u).get env = u := Store.get_set
    have hother : ∀ {t}, t ≠ env → (heap.tables.set env u).get t = heap.tables.get t := fun h => Store.get_set_of_ne h
    refine ⟨rfl, rfl, ⟨hk.interned he.interned, he.root, he.pos, he.lt, fun {t} hS => ?_, fun {t q} hS hq => ?_⟩,
      fun n => ?_, fun q hq hne n => ?_⟩
    · by_cases h : t = env
      · subst h
        rw [henv]
        exact hl.cells_frame hk hinv
      · rw [hother h]
        exact hl.cells_frame hk (he.cells hS)
    · by_cases h : t = env
      · subst h
        rw [henv, hproto] at hq
        exact he.proto hS hq
      · rw [hother h] at hq
        exact he.proto hS hq
    · rw [janetTableGet_succ, henv, hl.lookup_frame hk hinv (hl.symbol hp), hlookup _ (hl.symbol hp),
        if_pos ((symbol_equals_iff hl.toNameLaws (heap.interned p hp).1).mpr rfl)]
      rfl
    · have hneq : ¬(hashing heap).equals (janetWrapSymbol p) (janetWrapSymbol q) = true := fun h =>
        hne ((symbol_equals_iff hl.toNameLaws (heap.interned p hp).1).mp h).symm
      induction n with
      | zero => exact fun _ _ => rfl
      | succ n ih =>
        intro t hS
        have hsame : lookupCells (hashing { heap with tables := heap.tables.set env u })
            ((heap.tables.set env u).get t).cells (janetWrapSymbol q) =
              lookupCells (hashing heap) (heap.tables.get t).cells (janetWrapSymbol q) := by
          by_cases h : t = env
          · subst h
            rw [henv, hl.lookup_frame hk hinv (hl.symbol hq), hlookup _ (hl.symbol hq), if_neg hneq]
          · rw [hother h, hl.lookup_frame hk (he.cells hS) (hl.symbol hq)]
        have hchain : ((heap.tables.set env u).get t).proto = (heap.tables.get t).proto := by
          by_cases h : t = env
          · subst h
            rw [henv, hproto]
          · rw [hother h]
        rw [janetTableGet_succ, janetTableGet_succ, hsame, hchain]
        congr 1
        cases hnext : (heap.tables.get t).proto with
        | none => cases n <;> rfl
        | some q' => exact ih q' (he.proto hS hnext)

/-- **Binding a symbol** changes the binding of its bytes, and of no other bytes. -/
theorem binding_put (he : heap.Environment hashing K env S) (hl : KeyLaws hashing K) (hp : p ∈ heap.symcache)
    (hv : janetChecktype value .nil = false)
    (hput : tablePut (vmDictionaries hashing) env (janetWrapSymbol p) value heap = (.returns (), heap')) :
    heap'.binding hashing env (heap.strings.get p) = value ∧
      ∀ bytes, bytes ≠ heap.strings.get p → heap'.binding hashing env bytes = heap.binding hashing env bytes := by
  obtain ⟨hc, hstrings, he', hnew, hothers⟩ := he.put hl hp hv hput
  constructor
  · rw [he'.binding_eq hl .refl (hc ▸ hp) (by rw [hstrings])]
    exact hnew 199
  · intro bytes hne
    by_cases hold : ∃ q ∈ heap.symcache, heap.strings.get q = bytes
    · obtain ⟨q, hq, rfl⟩ := hold
      rw [he'.binding_eq hl .refl (hc ▸ hq) (by rw [hstrings]), he.binding_eq hl .refl hq rfl]
      exact hothers q hq (fun h => hne (h ▸ rfl)) _ _ he.root
    · have hnone : ∀ q ∈ heap.symcache, heap.strings.get q ≠ bytes := fun q hq h => hold ⟨q, hq, h⟩
      rw [he'.binding_new hl (by rw [hc, hstrings]; exact hnone), he.binding_new hl hnone]

end Heap.Environment

/-! ## Definitions -/

/-- **What a definition does**: it makes the value and an entry for it, binds the bytes of the name to the entry, and
changes neither another binding nor another object. -/
theorem define_spec {name : Text} {v : JanetValue} {documentation : Option Text} (hl : KeyLaws hashing K)
    (he : heap.Environment hashing K env S)
    (h : define (vmDictionaries hashing) env name v documentation heap = (.returns (), heap')) :
    ∃ raw heap₁ e bytes, makeRaw (vmDictionaries hashing) v 0 heap = (.returns raw, heap₁) ∧
      cBytes (Eval.cString name) = some bytes ∧ heap₁.tables.next ≤ e ∧ heap'.Entry hashing e raw ∧
      heap'.Environment hashing K env S ∧ heap.Keeps env heap' ∧ heap₁.Keeps env heap' ∧
      heap'.binding hashing env bytes = janetWrapTable e ∧
      ∀ other, other ≠ bytes → heap'.binding hashing env other = heap.binding hashing env other := by
  have hkeeps : heap.Keeps env heap' := Heap.Keeps.of_run (define_keeps name v documentation) h
  unfold define at h
  obtain ⟨raw, heap₁, hraw, h₁⟩ := Computation.returns_of_bind h
  have hk₁ : heap.Keeps 0 heap₁ := Heap.Keeps.of_run (makeRaw_keeps _ v 0) hraw
  have hkeeps₁ : heap₁.Keeps env heap' := Heap.Keeps.of_run (janetDef_keeps _ raw _) h₁
  unfold janetDef at h₁
  obtain ⟨e, heap₂, hentry, h₂⟩ := Computation.returns_of_bind h₁
  obtain ⟨p, heap₃, hp, hput⟩ := Computation.returns_of_bind h₂
  have he₁ := he.frame hl hk₁
  obtain ⟨rfl, hk₂, hentry⟩ := entry_spec hl.toNameLaws he₁.interned hentry
  obtain ⟨hk₃, hmem, hbytes⟩ := janetCsymbol_returns hp
  have he₃ := (he₁.frame hl hk₂).frame hl hk₃
  have hkput : heap₃.Keeps env heap' := Heap.Keeps.of_run (tablePut_keeps _) hput
  have hne : heap₁.tables.next ≠ env := Nat.ne_of_gt (he₁.lt he.root)
  obtain ⟨_, _, he', _, _⟩ := he₃.put hl hmem rfl hput
  obtain ⟨hnew, hothers⟩ := he₃.binding_put hl hmem rfl hput
  refine ⟨raw, heap₁, heap₁.tables.next, heap₃.strings.get p, hraw, hbytes, Nat.le_refl _,
    (hentry.frame hl.toNameLaws hk₃ (Nat.ne_of_gt heap₁.tables.pos)).frame hl.toNameLaws hkput hne, he', hkeeps, hkeeps₁,
    hnew, fun other hother => ?_⟩
  rw [hothers other hother, (he₁.frame hl hk₂).binding_frame hl hk₃, he₁.binding_frame hl hk₂, he.binding_frame hl hk₁]

/-- What an entry resolves to. -/
theorem Heap.Entry.resolve (h : heap.Entry hashing e value) (hn : NameLaws hashing)
    (hb : heap.binding hashing env bytes = janetWrapTable e) :
    heap.janetResolveExt hashing env bytes = ⟨.bindingDef, storedValue value, .none⟩ := by
  rw [Heap.janetResolveExt, hb]
  exact (h.frame hn (keeps_janetSymbol bytes) (Nat.ne_of_gt h.pos)).binding

end Environment

/-! ## Names as keys -/

/-- An interned symbol or keyword. -/
def Heap.IsName (heap : Heap) (x : Janet) : Prop :=
  ∃ p ∈ heap.symcache, x = janetWrapSymbol p ∨ x = janetWrapKeyword p

section Plain

variable {heap : Heap} {x y : Janet}

theorem getD_pointer (p : Nat) : (pointer p).getD 0 = p := by
  unfold pointer
  split
  · next h => exact h.symm
  · rfl

/-- Against a symbol or a keyword the addresses decide. -/
theorem plainEquals_name {t : JanetType} (p : Nat) (ht : t = .symbol ∨ t = .keyword) :
    plainHashing.plainEquals x (.box t p) = (janetType x == t && janetUnwrapPointer x == pointer p) := by
  unfold plainHashing.plainEquals
  rw [janetType_box, janetUnwrapPointer_box]
  cases h : janetType x == t with
  | false => rfl
  | true =>
    rw [beq_iff_eq] at h
    rcases ht with rfl | rfl <;> rw [h]

theorem plainHashing_names : NameLaws plainHashing where
  symbol_equals _ _ p := plainEquals_name p (Or.inl rfl)
  keyword_equals _ _ p := plainEquals_name p (Or.inr rfl)
  symbol_hash heap p := by
    show janetStringCalchash (heap.strings.get ((pointer p).getD 0)) = _
    rw [getD_pointer]
  keyword_hash heap p := by
    show janetStringCalchash (heap.strings.get ((pointer p).getD 0)) = _
    rw [getD_pointer]

/-- Names are equal when they are one object. -/
theorem plainEquals_iff (hx : heap.IsName x) (hy : heap.IsName y) : plainHashing.plainEquals x y = true ↔ x = y := by
  obtain ⟨p, hp, hx⟩ := hx
  obtain ⟨q, hq, hy⟩ := hy
  have hbox : ∃ t, (t = JanetType.symbol ∨ t = .keyword) ∧ y = .box t q := by
    rcases hy with rfl | rfl
    · exact ⟨_, Or.inl rfl, rfl⟩
    · exact ⟨_, Or.inr rfl, rfl⟩
  have hbox' : ∃ t, x = .box t p := by
    rcases hx with rfl | rfl
    · exact ⟨_, rfl⟩
    · exact ⟨_, rfl⟩
  obtain ⟨t, ht, rfl⟩ := hbox
  obtain ⟨t', rfl⟩ := hbox'
  rw [plainEquals_name q ht, janetType_box, janetUnwrapPointer_box, Bool.and_eq_true, beq_iff_eq,
    pointer_beq p q (heap.interned p hp).1, Janet.box.injEq]

/-- Interned names are lawful keys. -/
theorem plainHashing_laws : KeyLaws plainHashing Heap.IsName where
  toNameLaws := plainHashing_names
  lawful heap := by
    refine ⟨fun hx hy h => ?_, fun hx hy hz h h' => ?_, fun n hx hy h => ?_, fun h => mem_probeOrder h⟩
    · obtain rfl := (plainEquals_iff hx hy).mp h
      exact h
    · obtain rfl := (plainEquals_iff hx hy).mp h
      exact h'
    · obtain rfl := (plainEquals_iff hx hy).mp h
      rfl
  symbol hp := ⟨_, hp, Or.inl rfl⟩
  interned := by
    rintro heap x ⟨p, hp, rfl | rfl⟩ ht
    · exact ⟨p, hp, rfl⟩
    · cases ht
  frame := by
    rintro heap heap' p x hk ⟨q, hq, hx⟩
    have hget := hk.strings.get_eq q (heap.interned q hq).1 (heap.interned q hq).2 (Nat.ne_of_gt (heap.interned q hq).1)
    refine ⟨⟨q, hk.symbols q hq, hx⟩, ?_, fun y _ => rfl⟩
    rcases hx with rfl | rfl
    · rw [plainHashing_names.symbol_hash, plainHashing_names.symbol_hash, hget]
    · rw [plainHashing_names.keyword_hash, plainHashing_names.keyword_hash, hget]

end Plain

end SwiftJanet
