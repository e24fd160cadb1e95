import SwiftJanet.Copy.Making

/-!
# What making leaves alone

However it ends, making a raw value changes no object that was there, and interns every symbol once
(`makeRaw_keeps`): it writes only to the tables that it has made itself.
-/

namespace SwiftJanet

open Lib

/-- The heap keeps everything it has, except perhaps the table at `p`, and interned strings stay interned. -/
structure Heap.Keeps (p : Nat) (heap heap' : Heap) : Prop extends heap.Extends p heap' where
  symbols : ∀ q ∈ heap.symcache, q ∈ heap'.symcache
  interned : heap.Interned → heap'.Interned

section Keeps

variable {heap heap' heap'' : Heap} {p : Nat}

theorem Heap.Keeps.refl : heap.Keeps p heap := ⟨.refl, fun _ h => h, id⟩

theorem Heap.Keeps.trans (h : heap.Keeps p heap') (h' : heap'.Keeps p heap'') : heap.Keeps p heap'' :=
  ⟨h.toExtends.trans h'.toExtends, fun q hq => h'.symbols q (h.symbols q hq), fun hi => h'.interned (h.interned hi)⟩

theorem Heap.Keeps.weaken (h : heap.Keeps 0 heap') : heap.Keeps p heap' :=
  ⟨h.toExtends.weaken, h.symbols, h.interned⟩

/-- Interned strings stay where they are. -/
theorem Heap.Interned.frame (h : heap.Interned) (hs : heap.strings.Extends 0 heap'.strings)
    (hc : heap'.symcache = heap.symcache) : heap'.Interned := by
  rw [Heap.Interned, hc]
  refine List.Pairwise.imp_of_mem (fun {a b} ha hb hab => ?_) h
  have hget : ∀ q ∈ heap.symcache, heap'.strings.get q = heap.strings.get q := fun q hq =>
    hs.get_eq q (heap.interned q hq).1 (heap.interned q hq).2 (Nat.ne_of_gt (heap.interned q hq).1)
  rw [hget a ha, hget b hb]
  exact hab

theorem Heap.Keeps.of_symcache (h : heap.Extends p heap') (hc : heap'.symcache = heap.symcache) :
    heap.Keeps p heap' :=
  ⟨h, fun _ hq => by rw [hc]; exact hq, fun hi => hi.frame h.strings hc⟩

theorem keeps_janetString (bytes : List UInt8) : heap.Keeps 0 (heap.janetString bytes).1 :=
  .of_symcache (janetString_spec heap bytes).1 rfl

/-- A string is interned when no other one has its bytes. -/
theorem keeps_janetSymbol (bytes : List UInt8) : heap.Keeps 0 (heap.janetSymbol bytes).1 := by
  have hextends := (janetSymbol_spec heap bytes).1
  unfold Heap.janetSymbol at hextends ⊢
  cases hfind : heap.symcache.find? fun p => heap.strings.get p == bytes with
  | some p => exact .refl
  | none =>
    rw [hfind] at hextends
    refine ⟨hextends, fun q hq => List.mem_cons_of_mem _ hq, fun hi => ?_⟩
    have hold : ∀ q ∈ heap.symcache, (heap.strings.alloc bytes).get q = heap.strings.get q := fun q hq =>
      Store.get_alloc_of_ne (Nat.ne_of_lt (heap.interned q hq).2)
    refine List.pairwise_cons.mpr ⟨fun q hq => ?_, ?_⟩
    · show (heap.strings.alloc bytes).get heap.strings.next ≠ (heap.strings.alloc bytes).get q
      rw [Store.get_alloc, hold q hq]
      intro heq
      have := List.find?_eq_none.mp hfind q hq
      simp [heq] at this
    · refine List.Pairwise.imp_of_mem (fun {a b} ha hb hab => ?_) hi
      show (heap.strings.alloc bytes).get a ≠ (heap.strings.alloc bytes).get b
      rw [hold a ha, hold b hb]
      exact hab

/-- What only changes a new table keeps everything from before. -/
theorem keeps_of_newTable {t : JanetTable} (h : (heap.allocTable t).1.Keeps heap.tables.next heap') :
    heap.Keeps 0 heap' :=
  ⟨extends_of_newTable h.toExtends, h.symbols, h.interned⟩

end Keeps

/-! ## Making -/

section Make

variable (code : DictionaryCode)

/-- What a run that keeps the heap leaves. -/
theorem Heap.Keeps.of_run {α : Type} {x : Making α} {r : Result α} {p : Nat} {heap heap' : Heap}
    (hx : x.Keeps (Heap.Keeps p)) (h : x heap = (r, heap')) : heap.Keeps p heap' := by
  have := hx heap
  rwa [h] at this

theorem bind_keeps {α β : Type} {p : Nat} {x : Making α} {y : α → Making β} (hx : x.Keeps (Heap.Keeps p))
    (hy : ∀ a, (y a).Keeps (Heap.Keeps p)) : (x >>= y).Keeps (Heap.Keeps p) :=
  .bind (fun _ => .refl) (fun h h' => h.trans h') hx hy

theorem lift_keeps {α : Type} {p : Nat} (r : Result α) : (Computation.lift r : Making α).Keeps (Heap.Keeps p) :=
  .lift (fun _ => .refl) r

theorem pure_keeps {α : Type} {p : Nat} (a : α) : (pure a : Making α).Keeps (Heap.Keeps p) :=
  .pure (fun _ => .refl) a

theorem withJanetBytes_keeps {text : Text} {body : List UInt8 → Making Janet}
    (h : ∀ bytes, (body bytes).Keeps (Heap.Keeps 0)) : (withJanetBytes text body).Keeps (Heap.Keeps 0) :=
  bind_keeps (lift_keeps _) fun _ => h _

theorem allocating_keeps {alloc : Heap → Heap × Nat} (h : ∀ heap : Heap, heap.Keeps 0 (alloc heap).1) :
    (allocating alloc).Keeps (Heap.Keeps 0) := h

theorem structPut_keeps {st : StructBuilder} {key value : Janet} :
    (structPut code st key value).Keeps (Heap.Keeps 0) := by
  intro heap
  unfold structPut
  cases code.structPut heap st key value with
  | none => exact .refl
  | some st => exact .refl

theorem structEnd_keeps {st : StructBuilder} : (structEnd code st).Keeps (Heap.Keeps 0) := by
  intro heap
  unfold structEnd
  cases code.structEnd heap st with
  | none => exact .refl
  | some s => exact .of_symcache (extends_allocStruct _) rfl

theorem tablePut_keeps {p : Nat} {key value : Janet} : (tablePut code p key value).Keeps (Heap.Keeps p) := by
  intro heap
  unfold tablePut
  cases code.tablePut heap (heap.tables.get p) key value with
  | none => exact .refl
  | some t => exact .of_symcache ⟨⟨.refl, .refl, .refl⟩, .refl, Store.extends_set⟩ rfl

mutual
/-- **Making a raw value changes nothing that was there.** -/
theorem makeRaw_keeps : ∀ (v : JanetValue) (depth : Nat), (makeRaw code v depth).Keeps (Heap.Keeps 0)
  | .nil, _ => pure_keeps _
  | .boolean _, _ => pure_keeps _
  | .number _, _ => pure_keeps _
  | .string _, _ => withJanetBytes_keeps fun bytes =>
    bind_keeps (allocating_keeps fun _ => keeps_janetString bytes) fun _ => pure_keeps _
  | .keyword _, _ => withJanetBytes_keeps fun bytes =>
    bind_keeps (allocating_keeps fun _ => keeps_janetSymbol bytes) fun _ => pure_keeps _
  | .symbol _, _ => withJanetBytes_keeps fun bytes =>
    bind_keeps (allocating_keeps fun _ => keeps_janetSymbol bytes) fun _ => pure_keeps _
  | .tuple elements, _ =>
    bind_keeps (lift_keeps _) fun inner => bind_keeps (makeRaws_keeps elements inner) fun raws =>
      bind_keeps (lift_keeps _) fun _ =>
        bind_keeps (allocating_keeps fun _ => .of_symcache (extends_allocTuple _) rfl) fun _ => pure_keeps _
  | .array elements, _ =>
    bind_keeps (lift_keeps _) fun inner => bind_keeps (makeRaws_keeps elements inner) fun raws =>
      bind_keeps (lift_keeps _) fun _ =>
        bind_keeps (allocating_keeps fun _ => .of_symcache (extends_allocArray _) rfl) fun _ => pure_keeps _
  | .struct entries, _ =>
    bind_keeps (lift_keeps _) fun inner => bind_keeps (lift_keeps _) fun _ =>
      bind_keeps (putStruct_keeps entries inner _) fun _ =>
        bind_keeps (structEnd_keeps code) fun _ => pure_keeps _
  | .table entries, depth => by
    refine bind_keeps (lift_keeps _) fun inner => bind_keeps (lift_keeps _) fun count heap => ?_
    apply @keeps_of_newTable _ _ (code.table count)
    exact bind_keeps (putTable_keeps entries inner heap.tables.next) (fun _ => pure_keeps _) _
  | .unsupported _, _ => lift_keeps _
theorem makeRaws_keeps : ∀ (vs : List JanetValue) (inner : Nat), (makeRaws code vs inner).Keeps (Heap.Keeps 0)
  | [], _ => pure_keeps _
  | v :: vs, inner =>
    bind_keeps (makeRaw_keeps v inner) fun _ => bind_keeps (makeRaws_keeps vs inner) fun _ => pure_keeps _
theorem putStruct_keeps : ∀ (es : List (JanetValue × JanetValue)) (inner : Nat) (st : StructBuilder),
    (putStruct code es inner st).Keeps (Heap.Keeps 0)
  | [], _, _ => pure_keeps _
  | (key, value) :: es, inner, _ =>
    bind_keeps (makeRaw_keeps key inner) fun _ => bind_keeps (makeRaw_keeps value inner) fun _ =>
      bind_keeps (structPut_keeps code) fun _ => putStruct_keeps es inner _
theorem putTable_keeps : ∀ (es : List (JanetValue × JanetValue)) (inner p : Nat),
    (putTable code es inner p).Keeps (Heap.Keeps p)
  | [], _, _ => pure_keeps _
  | (key, value) :: es, inner, p =>
    bind_keeps (fun heap => (makeRaw_keeps key inner heap).weaken) fun _ =>
      bind_keeps (fun heap => (makeRaw_keeps value inner heap).weaken) fun _ =>
        bind_keeps (tablePut_keeps code) fun _ => putTable_keeps es inner p
end

end Make

end SwiftJanet
