import Mathlib.Data.List.Basic
import Mathlib.Tactic.SplitIfs

/-!
# Robin Hood hashing

A hash table is a ring of cells; a key is looked for from its home onwards. Of two keys that want a cell the one further
from home has the better claim, and among keys equally far from home a fixed order decides (`claim`). Putting a key moves
the weaker one on.

- `Stable`: on its way from home a key passes only keys with better claims, which `put` keeps (`stable_put`);
- `stable_unique`: two stable tables with a free cell and the same keys have the same key in every cell. Where a key
  stands depends on what is in the table and not on how it came there;
- `find_put`: a table is a finite map, in which the last value put under a key counts.
-/

namespace Lib.RobinHood

/-! ## Distances on a ring -/

/-- The way from `a` forward to `b` on a ring of `n` cells. -/
def dist (n a b : Nat) : Nat := (b + n - a) % n

section Dist

variable {n a b c : Nat}

theorem dist_eq (ha : a < n) (hb : b < n) : dist n a b = if a ≤ b then b - a else b + n - a := by
  rw [dist]
  split
  · rw [show b + n - a = b - a + n by omega, Nat.add_mod_right, Nat.mod_eq_of_lt (by omega)]
  · rw [Nat.mod_eq_of_lt (by omega)]

theorem dist_lt (ha : a < n) : dist n a b < n := Nat.mod_lt _ (by omega)

@[simp] theorem dist_self (ha : a < n) : dist n a a = 0 := by
  rw [dist_eq ha ha, if_pos (Nat.le_refl a), Nat.sub_self]

theorem dist_inj (ha : a < n) (hb : b < n) (hc : c < n) : dist n a b = dist n a c ↔ b = c := by
  rw [dist_eq ha hb, dist_eq ha hc]
  split_ifs <;> omega

/-- The cell after `b` is one step further. -/
theorem dist_succ (ha : a < n) (hb : b < n) (h : dist n a b + 1 < n) : dist n a ((b + 1) % n) = dist n a b + 1 := by
  have hb' : (b + 1) % n = if b + 1 = n then 0 else b + 1 := by
    split
    · next h => rw [h, Nat.mod_self]
    · rw [Nat.mod_eq_of_lt (by omega)]
  rw [dist_eq ha hb] at h ⊢
  rw [dist_eq ha (Nat.mod_lt _ (by omega)), hb']
  split_ifs at h ⊢ <;> omega

/-- A cell nearer to home than another one is nearer to a third cell as well that lies behind both. -/
theorem dist_lt_dist {e : Nat} (ha : a < n) (hb : b < n) (hc : c < n) (he : e < n) (hbc : dist n a b < dist n a c)
    (hce : dist n a c < dist n a e) : dist n e b < dist n e c := by
  rw [dist_eq ha hb, dist_eq ha hc] at hbc
  rw [dist_eq ha hc, dist_eq ha he] at hce
  rw [dist_eq he hb, dist_eq he hc]
  split_ifs at hbc hce ⊢ <;> omega

end Dist

/-- The `m` cells from `i` onwards. -/
def ring (n : Nat) : Nat → Nat → List Nat
  | _, 0 => []
  | i, m + 1 => i :: ring n ((i + 1) % n) m

/-- Going once around the ring every cell is met. -/
theorem mem_ring {n : Nat} : ∀ {m i j : Nat}, i < n → j < n → dist n i j < m → m ≤ n → j ∈ ring n i m
  | 0, _, _, _, _, h, _ => by omega
  | m + 1, i, j, hi, hj, h, hm => by
    rw [ring]
    by_cases hij : j = i
    · exact hij ▸ List.mem_cons_self
    · refine List.mem_cons_of_mem i (mem_ring (Nat.mod_lt _ (by omega)) hj ?_ (by omega))
      have hnext : (i + 1) % n = if i + 1 = n then 0 else i + 1 := by
        split
        · next h => rw [h, Nat.mod_self]
        · rw [Nat.mod_eq_of_lt (by omega)]
      rw [dist_eq hi hj] at h
      rw [dist_eq (Nat.mod_lt _ (by omega)) hj, hnext]
      split_ifs at h ⊢ <;> omega

theorem lt_of_mem_ring {n : Nat} : ∀ {m i j : Nat}, i < n → j ∈ ring n i m → j < n
  | m + 1, i, j, hi, h => by
    rcases List.mem_cons.mp h with rfl | h
    · exact hi
    · exact lt_of_mem_ring (Nat.mod_lt _ (by omega)) h

/-! ## Claims -/

section Defs

variable {K V : Type} (n : Nat) (home : K → Nat) (tie : K → K → Ordering)

/-- Which of two keys has the better claim to the cell `i`: `.gt` says the first one, `.eq` that they are the same. -/
def claim (i : Nat) (k k' : K) : Ordering :=
  (compare (dist n (home k) i) (dist n (home k') i)).then (tie k k')

/-- Put a key along a sequence of cells. What has to give way is put in the cells that follow. -/
def putLoop : List Nat → List (Option (K × V)) → K → V → List (Option (K × V))
  | [], cells, _, _ => cells
  | i :: is, cells, k, v =>
    match cells[i]? with
    | none => cells
    | some none => cells.set i (some (k, v))
    | some (some (k', v')) =>
      match claim n home tie i k k' with
      | .gt => putLoop is (cells.set i (some (k, v))) k' v'
      | .eq => cells.set i (some (k', v))
      | .lt => putLoop is cells k v

/-- Put a key, from its home onwards. -/
def put (cells : List (Option (K × V))) (k : K) (v : V) : List (Option (K × V)) :=
  putLoop n home tie (ring n (home k) n) cells k v

/-- The search along a sequence of cells: for a free one, or the key. -/
def findLoop (cells : List (Option (K × V))) (k : K) : List Nat → Option V
  | [] => none
  | i :: is =>
    match cells[i]? with
    | none | some none => none
    | some (some (k', v')) => if tie k' k = .eq then some v' else findLoop cells k is

/-- Look for a key, from its home onwards. -/
def find (cells : List (Option (K × V))) (k : K) : Option V := findLoop tie cells k (ring n (home k) n)

/-- Keys with the property `P` are ordered by `tie`, and those that are the same have one home on the ring. -/
structure Lawful (P : K → Prop) : Prop where
  swap : ∀ {a b}, P a → P b → tie b a = (tie a b).swap
  trans : ∀ {a b c}, P a → P b → P c → tie a b = .gt → tie b c = .gt → tie a c = .gt
  congr : ∀ {a b c}, P a → P b → P c → tie a b = .eq → tie a c = tie b c
  home_lt : ∀ {a}, P a → home a < n
  home_eq : ∀ {a b}, P a → P b → tie a b = .eq → home a = home b

/-- Every cell that the key passes before cell `i` has a key with a better claim. -/
def Ready (cells : List (Option (K × V))) (k : K) (i : Nat) : Prop :=
  ∀ q < n, dist n (home k) q < dist n (home k) i →
    ∃ e, cells[q]? = some (some e) ∧ claim n home tie q e.1 k = .gt

/-- The invariant: every key is where it is because it had to pass the cells before, no key is there twice, and all
keys have the property `P`. -/
structure Stable (P : K → Prop) (cells : List (Option (K × V))) : Prop where
  length : cells.length = n
  keys : ∀ {i : Nat} {e : K × V}, cells[i]? = some (some e) → P e.1
  ready : ∀ {i : Nat} {e : K × V}, cells[i]? = some (some e) → Ready n home tie cells e.1 i
  apart : ∀ {i j : Nat} {e f : K × V}, cells[i]? = some (some e) → cells[j]? = some (some f) → tie e.1 f.1 = .eq →
    i = j

end Defs

/-- Some cell has the entry. -/
def Holds {K V : Type} (cells : List (Option (K × V))) (e : K × V) : Prop := ∃ i : Nat, cells[i]? = some (some e)

section Laws

variable {K V : Type} {n : Nat} {home : K → Nat} {tie : K → K → Ordering} {P : K → Prop} {a b c : K} {i : Nat}

theorem Lawful.refl (hl : Lawful n home tie P) (ha : P a) : tie a a = .eq := by
  have h := hl.swap ha ha
  cases ht : tie a a with
  | eq => rfl
  | lt => rw [ht] at h; cases h
  | gt => rw [ht] at h; cases h

theorem Lawful.symm (hl : Lawful n home tie P) (ha : P a) (hb : P b) (h : tie a b = .eq) : tie b a = .eq := by
  rw [hl.swap ha hb, h]; rfl

theorem Lawful.same_trans (hl : Lawful n home tie P) (ha : P a) (hb : P b) (hc : P c) (h : tie a b = .eq)
    (h' : tie b c = .eq) : tie a c = .eq := (hl.congr ha hb hc h).trans h'

theorem claim_eq_gt : claim n home tie i a b = .gt ↔ dist n (home b) i < dist n (home a) i ∨
    dist n (home a) i = dist n (home b) i ∧ tie a b = .gt := by
  rw [claim, Ordering.then_eq_gt, Nat.compare_eq_gt, Nat.compare_eq_eq]

theorem claim_eq_eq : claim n home tie i a b = .eq ↔ dist n (home a) i = dist n (home b) i ∧ tie a b = .eq := by
  rw [claim, Ordering.then_eq_eq, Nat.compare_eq_eq]

/-- The same key has the same claim. -/
theorem claim_self (hl : Lawful n home tie P) (ha : P a) (hb : P b) (h : tie a b = .eq) :
    claim n home tie i a b = .eq := claim_eq_eq.mpr ⟨by rw [hl.home_eq ha hb h], h⟩

theorem claim_swap (hl : Lawful n home tie P) (ha : P a) (hb : P b) :
    claim n home tie i b a = (claim n home tie i a b).swap := by
  rw [claim, claim, Ordering.swap_then, hl.swap ha hb, Nat.compare_swap]

theorem claim_trans (hl : Lawful n home tie P) (ha : P a) (hb : P b) (hc : P c) (h : claim n home tie i a b = .gt)
    (h' : claim n home tie i b c = .gt) : claim n home tie i a c = .gt := by
  rw [claim_eq_gt] at h h' ⊢
  rcases h with h | ⟨h, ht⟩ <;> rcases h' with h' | ⟨h', ht'⟩
  · exact Or.inl (by omega)
  · exact Or.inl (by omega)
  · exact Or.inl (by omega)
  · exact Or.inr ⟨by omega, hl.trans ha hb hc ht ht'⟩

/-- A key has as good a claim as the same key. -/
theorem claim_congr (hl : Lawful n home tie P) (ha : P a) (hb : P b) (hc : P c) (h : tie a b = .eq) :
    claim n home tie i a c = claim n home tie i b c := by
  rw [claim, claim, hl.home_eq ha hb h, hl.congr ha hb hc h]

end Laws

/-! ## One cell filled -/

section Fill

variable {K V : Type} {n : Nat} {home : K → Nat} {tie : K → K → Ordering} {P : K → Prop}
  {cells : List (Option (K × V))} {k : K} {v : V} {i j : Nat} {e f : K × V}

/-- What stands in a cell after another one, or itself, was filled. -/
theorem getElem?_fill (hi : i < cells.length) :
    (cells.set i (some e))[j]? = some (some f) ↔ (j = i ∧ f = e) ∨ (j ≠ i ∧ cells[j]? = some (some f)) := by
  rw [List.getElem?_set]
  split
  · next h =>
    subst h
    simp [hi, eq_comm]
  · next h => simp [Ne.symm h]

/-- Passing one more cell whose key has the better claim. -/
theorem Ready.next (h : Ready n home tie cells k i) (hk : home k < n) (hi : i < n)
    (hroom : dist n (home k) i + 1 < n) (he : cells[i]? = some (some e)) (hclaim : claim n home tie i e.1 k = .gt) :
    Ready n home tie cells k ((i + 1) % n) := by
  intro q hq hlt
  rw [dist_succ hk hi hroom] at hlt
  by_cases hqi : q = i
  · exact hqi ▸ ⟨e, he, hclaim⟩
  · have hne : dist n (home k) q ≠ dist n (home k) i := fun h => hqi ((dist_inj hk hq hi).mp h)
    exact h q hq (by omega)

/-- Filling a cell with a key that has the better claim, or the only one, takes nothing from the keys that pass. -/
theorem Ready.fill (h : Ready n home tie cells k j) (hi : i < cells.length)
    (hbetter : ∀ f, cells[i]? = some (some f) → claim n home tie i f.1 k = .gt → claim n home tie i e.1 k = .gt) :
    Ready n home tie (cells.set i (some e)) k j := by
  intro q hq hlt
  obtain ⟨f, hf, hclaim⟩ := h q hq hlt
  by_cases hqi : q = i
  · subst hqi
    exact ⟨e, (getElem?_fill hi).mpr (Or.inl ⟨rfl, rfl⟩), hbetter f hf hclaim⟩
  · exact ⟨f, (getElem?_fill hi).mpr (Or.inr ⟨hqi, hf⟩), hclaim⟩

/-- A free cell is further from home than every key that is ready. -/
theorem Ready.lt_free (h : Ready n home tie cells k i) (hk : home k < n) (hi : i < n) (hj : j < n)
    (hfree : cells[j]? = some none) (hne : j ≠ i) : dist n (home k) i < dist n (home k) j := by
  by_contra hge
  have hd : dist n (home k) j ≠ dist n (home k) i := fun h => hne ((dist_inj hk hj hi).mp h)
  obtain ⟨f, hf, _⟩ := h j hj (by omega)
  rw [hfree] at hf
  cases hf

variable (hl : Lawful n home tie P) (hs : Stable n home tie P cells) (hk : P k)
include hl hs hk

/-- **Filling a free cell** with a key that is ready for it, and that is not there yet. -/
theorem Stable.fill_free (hr : Ready n home tie cells k i) (hfree : cells[i]? = some none)
    (hnew : ∀ (j : Nat) f, cells[j]? = some (some f) → tie f.1 k ≠ .eq) :
    Stable n home tie P (cells.set i (some (k, v))) := by
  have hi : i < cells.length := (List.getElem?_eq_some_iff.mp hfree).1
  have hnone : ∀ (f : K × V), cells[i]? ≠ some (some f) := fun f hf => by rw [hfree] at hf; cases hf
  refine ⟨List.length_set.trans hs.length, fun {j f} hf => ?_, fun {j f} hf => ?_, fun {j m f g} hf hg hfg => ?_⟩
  · rcases (getElem?_fill hi).mp hf with ⟨_, rfl⟩ | ⟨_, hf⟩
    · exact hk
    · exact hs.keys hf
  · rcases (getElem?_fill hi).mp hf with ⟨rfl, rfl⟩ | ⟨_, hf⟩
    · exact hr.fill hi fun f hf => absurd hf (hnone f)
    · exact (hs.ready hf).fill hi fun g hg => absurd hg (hnone g)
  · rcases (getElem?_fill hi).mp hf with ⟨rfl, rfl⟩ | ⟨_, hf'⟩ <;>
      rcases (getElem?_fill hi).mp hg with ⟨rfl, rfl⟩ | ⟨_, hg'⟩
    · rfl
    · exact absurd (hl.symm hk (hs.keys hg') hfg) (hnew m g hg')
    · exact absurd hfg (hnew j f hf')
    · exact hs.apart hf' hg' hfg

/-- **Taking a cell from a key with a weaker claim**: what stood there is ready for the next cell. -/
theorem Stable.swap (hr : Ready n home tie cells k i) (he : cells[i]? = some (some e))
    (hclaim : claim n home tie i k e.1 = .gt) (hnew : ∀ (j : Nat) f, cells[j]? = some (some f) → tie f.1 k ≠ .eq) :
    Stable n home tie P (cells.set i (some (k, v))) := by
  have hi : i < cells.length := (List.getElem?_eq_some_iff.mp he).1
  have hpass : ∀ {g : K} {m : Nat}, P g → Ready n home tie cells g m → Ready n home tie (cells.set i (some (k, v))) g m :=
    fun hg h => h.fill hi fun f hf hf' => by
      obtain rfl := Option.some.inj (Option.some.inj (he.symm.trans hf))
      exact claim_trans hl hk (hs.keys he) hg hclaim hf'
  refine ⟨List.length_set.trans hs.length, fun {j f} hf => ?_, fun {j f} hf => ?_, fun {j m f g} hf hg hfg => ?_⟩
  · rcases (getElem?_fill hi).mp hf with ⟨_, rfl⟩ | ⟨_, hf⟩
    · exact hk
    · exact hs.keys hf
  · rcases (getElem?_fill hi).mp hf with ⟨rfl, rfl⟩ | ⟨_, hf⟩
    · exact hpass hk hr
    · exact hpass (hs.keys hf) (hs.ready hf)
  · rcases (getElem?_fill hi).mp hf with ⟨rfl, rfl⟩ | ⟨_, hf'⟩ <;>
      rcases (getElem?_fill hi).mp hg with ⟨rfl, rfl⟩ | ⟨_, hg'⟩
    · rfl
    · exact absurd (hl.symm hk (hs.keys hg') hfg) (hnew m g hg')
    · exact absurd hfg (hnew j f hf')
    · exact hs.apart hf' hg' hfg

end Fill

/-- **Changing the value of a key** moves nothing. -/
theorem Stable.replace {K V : Type} {n : Nat} {home : K → Nat} {tie : K → K → Ordering} {P : K → Prop}
    {cells : List (Option (K × V))} {i : Nat} {e : K × V} {v : V} (hs : Stable n home tie P cells)
    (he : cells[i]? = some (some e)) : Stable n home tie P (cells.set i (some (e.1, v))) := by
  have hi : i < cells.length := (List.getElem?_eq_some_iff.mp he).1
  have hold : ∀ {j : Nat} {f : K × V}, (cells.set i (some (e.1, v)))[j]? = some (some f) →
      ∃ g : K × V, cells[j]? = some (some g) ∧ g.1 = f.1 := fun hf => by
    rcases (getElem?_fill hi).mp hf with ⟨rfl, rfl⟩ | ⟨_, hf⟩
    · exact ⟨e, he, rfl⟩
    · exact ⟨_, hf, rfl⟩
  have hpass : ∀ {g : K} {m : Nat}, Ready n home tie cells g m → Ready n home tie (cells.set i (some (e.1, v))) g m :=
    fun h => h.fill hi fun f hf hf' => by
      obtain rfl := Option.some.inj (Option.some.inj (he.symm.trans hf))
      exact hf'
  refine ⟨List.length_set.trans hs.length, fun hf => ?_, fun hf => ?_, fun hf hg hfg => ?_⟩
  · obtain ⟨g, hg, hgf⟩ := hold hf
    exact hgf ▸ hs.keys hg
  · obtain ⟨g, hg, hgf⟩ := hold hf
    exact hgf ▸ hpass (hs.ready hg)
  · obtain ⟨f', hf', hff⟩ := hold hf
    obtain ⟨g', hg', hgg⟩ := hold hg
    exact hs.apart hf' hg' (by rw [hff, hgg]; exact hfg)

/-! ## Putting -/

section Put

variable {K V : Type} {n : Nat} {home : K → Nat} {tie : K → K → Ordering} {P : K → Prop}
  {cells : List (Option (K × V))} {k : K} {v : V} {i : Nat} {e : K × V}

/-- No cell has the key. -/
def Fresh (tie : K → K → Ordering) (cells : List (Option (K × V))) (k : K) : Prop :=
  ∀ (j : Nat) (f : K × V), cells[j]? = some (some f) → tie f.1 k ≠ .eq

/-- The key that gives way is not in the table any more. -/
theorem Stable.fresh_swap (hl : Lawful n home tie P) (hs : Stable n home tie P cells) (hk : P k)
    (he : cells[i]? = some (some e)) (hnew : Fresh tie cells k) : Fresh tie (cells.set i (some (k, v))) e.1 := by
  have hi : i < cells.length := (List.getElem?_eq_some_iff.mp he).1
  intro j f hf heq
  rcases (getElem?_fill hi).mp hf with ⟨_, rfl⟩ | ⟨hne, hf⟩
  · exact hnew i e he (hl.symm hk (hs.keys he) heq)
  · exact hne (hs.apart hf he heq)

/-- A cell behind the ones that are passed is free, and so one of those to come. -/
theorem free_ahead {m : Nat} (hfree : ∃ j ∈ ring n i (m + 1), cells[j]? = some none) (he : cells[i]? = some (some e)) :
    ∃ j ∈ ring n ((i + 1) % n) m, cells[j]? = some none := by
  obtain ⟨j, hj, hfree⟩ := hfree
  rcases List.mem_cons.mp hj with rfl | hj
  · rw [he] at hfree
    cases hfree
  · exact ⟨j, hj, hfree⟩

/-- **A new key is added**, and the table stays stable: the induction is on the cells that are left, and it is ready for
the first of them. -/
theorem putLoop_fresh (hl : Lawful n home tie P) : ∀ {m i : Nat} {cells : List (Option (K × V))} {k : K} {v : V},
    Stable n home tie P cells → P k → i < n → Ready n home tie cells k i → Fresh tie cells k →
      (∃ j ∈ ring n i m, cells[j]? = some none) →
        Stable n home tie P (putLoop n home tie (ring n i m) cells k v) ∧
          ∀ e, Holds (putLoop n home tie (ring n i m) cells k v) e ↔ e = (k, v) ∨ Holds cells e
  | 0, _, _, _, _, _, _, _, _, _, hfree => by
    obtain ⟨_, hj, _⟩ := hfree
    cases hj
  | m + 1, i, cells, k, v, hs, hk, hi, hr, hnew, hfree => by
    have hhome := hl.home_lt hk
    have hlen : i < cells.length := hs.length ▸ hi
    have hroom : ∀ {e : K × V}, cells[i]? = some (some e) → dist n (home k) i + 1 < n := fun he => by
      obtain ⟨j, hj, hfree⟩ := free_ahead hfree he
      have hjn : j < n := lt_of_mem_ring (Nat.mod_lt _ (by omega)) hj
      have hlt := hr.lt_free hhome hi hjn hfree fun h => by rw [h, he] at hfree; cases hfree
      have := @dist_lt n _ j hhome
      omega
    rw [ring, putLoop]
    cases hcell : cells[i]? with
    | none => exact absurd (List.getElem?_eq_none_iff.mp hcell) (by omega)
    | some cell =>
      cases cell with
      | none =>
        refine ⟨hs.fill_free hl hk hr hcell hnew, fun e => ?_⟩
        constructor
        · rintro ⟨j, hj⟩
          rcases (getElem?_fill hlen).mp hj with ⟨_, rfl⟩ | ⟨_, hj⟩
          · exact Or.inl rfl
          · exact Or.inr ⟨j, hj⟩
        · rintro (rfl | ⟨j, hj⟩)
          · exact ⟨i, (getElem?_fill hlen).mpr (Or.inl ⟨rfl, rfl⟩)⟩
          · exact ⟨j, (getElem?_fill hlen).mpr (Or.inr ⟨fun h => (by rw [h, hcell] at hj; cases hj), hj⟩)⟩
      | some e =>
        dsimp only
        cases hclaim : claim n home tie i k e.1 with
        | lt =>
          -- the key goes on
          have hready := hr.next hhome hi (hroom hcell) hcell (by rw [claim_swap hl hk (hs.keys hcell), hclaim]; rfl)
          exact putLoop_fresh hl hs hk (Nat.mod_lt _ (by omega)) hready hnew (free_ahead hfree hcell)
        | eq => exact absurd (hl.symm hk (hs.keys hcell) (claim_eq_eq.mp hclaim).2) (hnew i e hcell)
        | gt =>
          -- what stood there goes on
          have hswap := hs.swap (v := v) hl hk hr hcell hclaim hnew
          have hthere : (cells.set i (some (k, v)))[i]? = some (some (k, v)) :=
            (getElem?_fill hlen).mpr (Or.inl ⟨rfl, rfl⟩)
          have hready : Ready n home tie (cells.set i (some (k, v))) e.1 i :=
            (hs.ready hcell).fill hlen fun f hf hf' => by
              obtain rfl := Option.some.inj (Option.some.inj (hcell.symm.trans hf))
              exact hclaim
          have hfree' : ∃ j ∈ ring n ((i + 1) % n) m, (cells.set i (some (k, v)))[j]? = some none := by
            obtain ⟨j, hj, hnone⟩ := free_ahead hfree hcell
            refine ⟨j, hj, ?_⟩
            rw [List.getElem?_set_ne fun h => by rw [h, hnone] at hcell; cases hcell]
            exact hnone
          have hnext := hready.next (hl.home_lt (hs.keys hcell)) hi (by
            obtain ⟨j, hj, hnone⟩ := hfree'
            have hjn : j < n := lt_of_mem_ring (Nat.mod_lt _ (by omega)) hj
            have hlt := hready.lt_free (hl.home_lt (hs.keys hcell)) hi hjn hnone fun h => by
              rw [h, hthere] at hnone
              cases hnone
            have := @dist_lt n _ j (hl.home_lt (hs.keys hcell))
            omega) hthere hclaim
          obtain ⟨hstable, hholds⟩ := putLoop_fresh hl (v := e.2) hswap (hs.keys hcell) (Nat.mod_lt _ (by omega)) hnext
            (hs.fresh_swap hl hk hcell hnew) hfree'
          refine ⟨hstable, fun f => (hholds f).trans ?_⟩
          constructor
          · rintro (rfl | ⟨j, hj⟩)
            · exact Or.inr ⟨i, hcell⟩
            · rcases (getElem?_fill hlen).mp hj with ⟨_, rfl⟩ | ⟨_, hj⟩
              · exact Or.inl rfl
              · exact Or.inr ⟨j, hj⟩
          · rintro (rfl | ⟨j, hj⟩)
            · exact Or.inr ⟨i, hthere⟩
            · by_cases hji : j = i
              · subst hji
                exact Or.inl (Option.some.inj (Option.some.inj (hj.symm.trans hcell)))
              · exact Or.inr ⟨j, (getElem?_fill hlen).mpr (Or.inr ⟨hji, hj⟩)⟩

/-- **A key that is there gets the new value**: up to its cell every key has a better claim. -/
theorem putLoop_same (hl : Lawful n home tie P) (hs : Stable n home tie P cells) (hk : P k) {j : Nat}
    (he : cells[j]? = some (some e)) (hsame : tie k e.1 = .eq) : ∀ {m i : Nat}, i < n → j ∈ ring n i m →
      dist n (home k) i ≤ dist n (home k) j →
        putLoop n home tie (ring n i m) cells k v = cells.set j (some (e.1, v))
  | 0, _, _, hj, _ => by cases hj
  | m + 1, i, hi, hj, hle => by
    have hhome := hl.home_lt hk
    have hjn : j < n := lt_of_mem_ring hi hj
    rw [ring, putLoop]
    by_cases hij : i = j
    · subst hij
      rw [he]
      dsimp only
      rw [claim_self hl hk (hs.keys he) hsame]
    · have hlt : dist n (home k) i < dist n (home k) j := by
        have hne : dist n (home k) i ≠ dist n (home k) j := fun h => hij ((dist_inj hhome hi hjn).mp h)
        omega
      obtain ⟨f, hf, hclaim⟩ := hs.ready he i hi (by rwa [← hl.home_eq hk (hs.keys he) hsame])
      have hkf : claim n home tie i k f.1 = .lt := by
        rw [claim_congr hl hk (hs.keys he) (hs.keys hf) hsame, claim_swap hl (hs.keys hf) (hs.keys he), hclaim]
        rfl
      rw [hf]
      dsimp only
      rw [hkf]
      have hnext := dist_succ hhome hi (by have := @dist_lt n _ j hhome; omega)
      have hj' : j ∈ ring n ((i + 1) % n) m := by
        rcases List.mem_cons.mp hj with rfl | hj
        · exact absurd rfl hij
        · exact hj
      exact putLoop_same hl hs hk he hsame (Nat.mod_lt _ (by omega)) hj' (by omega)

end Put

/-! ## One table for every set of keys -/

section Unique

variable {K V : Type} {n : Nat} {home : K → Nat} {tie : K → K → Ordering} {P : K → Prop}
  {cells cells' : List (Option (K × V))}

/-- Every key of the first table is in the second one as well. -/
def Within (tie : K → K → Ordering) (cells cells' : List (Option (K × V))) : Prop :=
  ∀ e, Holds cells e → ∃ f, Holds cells' f ∧ tie e.1 f.1 = .eq

/-- A key that stands further from home in the second table had to pass a better one there, which stands nearer to its
home in the first table; and so on, ever nearer to the free cell. -/
theorem not_further (hl : Lawful n home tie P) (hs : Stable n home tie P cells) (hs' : Stable n home tie P cells')
    (hback : Within tie cells' cells) {free : Nat} (hfree : cells'[free]? = some none) {p p' : Nat} {e e' : K × V}
    (he : cells[p]? = some (some e)) (he' : cells'[p']? = some (some e')) (hee : tie e.1 e'.1 = .eq) :
    ¬dist n (home e.1) p < dist n (home e.1) p' := by
  induction hm : dist n free p using Nat.strongRecOn generalizing p p' e e' with
  | ind m ih =>
    intro hlt
    have hlen := hs.length
    have hlen' := hs'.length
    have hp : p < n := hlen ▸ (List.getElem?_eq_some_iff.mp he).1
    have hp' : p' < n := hlen' ▸ (List.getElem?_eq_some_iff.mp he').1
    have hf : free < n := hlen' ▸ (List.getElem?_eq_some_iff.mp hfree).1
    have hhome : home e'.1 = home e.1 := (hl.home_eq (hs.keys he) (hs'.keys he') hee).symm
    -- the key that was passed, and where it stands in the first table
    obtain ⟨f', hf', hbetter⟩ := hs'.ready he' p hp (by rwa [hhome])
    obtain ⟨f, ⟨q, hfq⟩, hff⟩ := hback f' ⟨p, hf'⟩
    have hq : q < n := hlen ▸ (List.getElem?_eq_some_iff.mp hfq).1
    have hffhome : home f'.1 = home f.1 := hl.home_eq (hs'.keys hf') (hs.keys hfq) hff
    have hhomef : home f'.1 < n := hl.home_lt (hs'.keys hf')
    rcases Nat.lt_trichotomy (dist n (home f'.1) q) (dist n (home f'.1) p) with hqp | hqp | hqp
    · -- nearer to the free cell
      have hpf : dist n (home f'.1) p < dist n (home f'.1) free :=
        (hs'.ready hf').lt_free hhomef hp hf hfree fun h => by rw [h, hf'] at hfree; cases hfree
      have hdec : dist n free q < m := hm ▸ dist_lt_dist hhomef hq hp hf hqp hpf
      exact ih _ hdec hfq hf' (hl.symm (hs'.keys hf') (hs.keys hfq) hff) rfl (by rwa [← hffhome])
    · -- the same key twice
      obtain rfl := (dist_inj hhomef hq hp).mp hqp
      obtain rfl := Option.some.inj (Option.some.inj (he.symm.trans hfq))
      have hsame := hl.same_trans (hs'.keys hf') (hs.keys hfq) (hs'.keys he') hff hee
      obtain rfl := hs'.apart hf' he' hsame
      omega
    · -- two keys, each with a better claim than the other
      obtain ⟨g, hg, hworse⟩ := hs.ready hfq p hp (by rwa [← hffhome])
      obtain rfl := Option.some.inj (Option.some.inj (he.symm.trans hg))
      rw [claim_congr hl (hs'.keys hf') (hs.keys hfq) (hs'.keys he') hff,
        claim_swap hl (hs'.keys he') (hs.keys hfq),
        ← claim_congr hl (hs.keys he) (hs'.keys he') (hs.keys hfq) hee,
        claim_swap hl (hs.keys hfq) (hs.keys he), Ordering.swap_swap] at hbetter
      rw [claim_swap hl (hs.keys hfq) (hs.keys he), hbetter] at hworse
      cases hworse

/-- **Two stable tables with the same keys have the same key in every cell.** -/
theorem stable_unique (hl : Lawful n home tie P) (hs : Stable n home tie P cells) (hs' : Stable n home tie P cells')
    (hfree : none ∈ cells) (hfree' : none ∈ cells') (hthere : Within tie cells cells')
    (hback : Within tie cells' cells) {i : Nat} {e : K × V} (he : cells[i]? = some (some e)) :
    ∃ f, cells'[i]? = some (some f) ∧ tie e.1 f.1 = .eq := by
  obtain ⟨a, ha⟩ := List.mem_iff_getElem?.mp hfree
  obtain ⟨b, hb⟩ := List.mem_iff_getElem?.mp hfree'
  obtain ⟨f, ⟨j, hf⟩, hef⟩ := hthere e ⟨i, he⟩
  have hfe : tie f.1 e.1 = .eq := hl.symm (hs.keys he) (hs'.keys hf) hef
  have hi : i < n := hs.length ▸ (List.getElem?_eq_some_iff.mp he).1
  have hj : j < n := hs'.length ▸ (List.getElem?_eq_some_iff.mp hf).1
  have hle := not_further hl hs hs' hback hb he hf hef
  have hge := not_further hl hs' hs hthere ha hf he hfe
  rw [hl.home_eq (hs'.keys hf) (hs.keys he) hfe] at hge
  obtain rfl := (dist_inj (hl.home_lt (hs.keys he)) hi hj).mp (by omega)
  exact ⟨f, hf, hef⟩

end Unique

/-! ## Finding -/

section Find

variable {K V : Type} {n : Nat} {home : K → Nat} {tie : K → K → Ordering} {P : K → Prop}
  {cells : List (Option (K × V))} {k : K} {v : V}

/-- What is found is there. -/
theorem holds_of_findLoop : ∀ {is : List Nat}, findLoop tie cells k is = some v →
    ∃ e, Holds cells e ∧ tie e.1 k = .eq ∧ e.2 = v
  | i :: is, h => by
    rw [findLoop] at h
    split at h
    · cases h
    · cases h
    · next k' v' hi =>
      split at h
      · next hk' => exact ⟨(k', v'), ⟨i, hi⟩, hk', Option.some.inj h⟩
      · exact holds_of_findLoop h

/-- **The search for a key that is there comes to it**: on the way there are only other keys. -/
theorem findLoop_holds (hl : Lawful n home tie P) (hs : Stable n home tie P cells) (hk : P k) {j : Nat} {e : K × V}
    (he : cells[j]? = some (some e)) (hsame : tie k e.1 = .eq) : ∀ {m i : Nat}, i < n → j ∈ ring n i m →
      dist n (home k) i ≤ dist n (home k) j → findLoop tie cells k (ring n i m) = some e.2
  | 0, _, _, hj, _ => by cases hj
  | m + 1, i, hi, hj, hle => by
    have hhome := hl.home_lt hk
    have hjn : j < n := lt_of_mem_ring hi hj
    rw [ring, findLoop]
    by_cases hij : i = j
    · subst hij
      rw [he]
      exact if_pos (hl.symm hk (hs.keys he) hsame)
    · have hlt : dist n (home k) i < dist n (home k) j := by
        have hne : dist n (home k) i ≠ dist n (home k) j := fun h => hij ((dist_inj hhome hi hjn).mp h)
        omega
      obtain ⟨f, hf, _⟩ := hs.ready he i hi (by rwa [← hl.home_eq hk (hs.keys he) hsame])
      have hother : tie f.1 k ≠ .eq := fun h =>
        hij (hs.apart hf he (hl.same_trans (hs.keys hf) hk (hs.keys he) h hsame))
      rw [hf]
      dsimp only
      rw [if_neg hother]
      have hnext := dist_succ hhome hi (by have := @dist_lt n _ j hhome; omega)
      have hj' : j ∈ ring n ((i + 1) % n) m := by
        rcases List.mem_cons.mp hj with rfl | hj
        · exact absurd rfl hij
        · exact hj
      exact findLoop_holds hl hs hk he hsame (Nat.mod_lt _ (by omega)) hj' (by omega)

variable (hl : Lawful n home tie P) (hs : Stable n home tie P cells) (hk : P k)
include hl hs hk

theorem find_eq_some : find n home tie cells k = some v ↔ ∃ e, Holds cells e ∧ tie e.1 k = .eq ∧ e.2 = v := by
  constructor
  · exact holds_of_findLoop
  · rintro ⟨e, ⟨j, he⟩, hsame, rfl⟩
    have hhome := hl.home_lt hk
    have hj : j < n := hs.length ▸ (List.getElem?_eq_some_iff.mp he).1
    refine findLoop_holds hl hs hk he (hl.symm (hs.keys he) hk hsame) hhome ?_ (by rw [dist_self hhome]; omega)
    exact mem_ring hhome hj (dist_lt hhome) (Nat.le_refl n)

end Find

/-! ## A finite map -/

section Map

variable {K V : Type} {n : Nat} {home : K → Nat} {tie : K → K → Ordering} {P : K → Prop}
  {cells : List (Option (K × V))} {k k' : K} {v : V} {i : Nat} {e : K × V}

theorem stable_empty : Stable n home tie P (List.replicate n (none : Option (K × V))) := by
  have hnone : ∀ {i : Nat} {e : K × V}, (List.replicate n (none : Option (K × V)))[i]? ≠ some (some e) := fun h => by
    cases List.eq_of_mem_replicate (List.mem_of_getElem? h)
  exact ⟨List.length_replicate, fun h => absurd h hnone, fun h => absurd h hnone, fun h => absurd h hnone⟩

/-- At home a key has passed nothing. -/
theorem ready_home (hhome : home k < n) : Ready n home tie cells k (home k) := fun q _ h => by
  rw [dist_self hhome] at h
  omega

variable (hl : Lawful n home tie P) (hs : Stable n home tie P cells) (hk : P k)
include hl hs hk

/-- Putting a new key where there is room. -/
theorem put_fresh (hroom : none ∈ cells) (hnew : Fresh tie cells k) : Stable n home tie P (put n home tie cells k v) ∧
    ∀ e, Holds (put n home tie cells k v) e ↔ e = (k, v) ∨ Holds cells e := by
  obtain ⟨j, hj⟩ := List.mem_iff_getElem?.mp hroom
  have hhome := hl.home_lt hk
  have hlt : j < n := hs.length ▸ (List.getElem?_eq_some_iff.mp hj).1
  exact putLoop_fresh hl hs hk hhome (ready_home hhome) hnew ⟨j, mem_ring hhome hlt (dist_lt hhome) (Nat.le_refl n), hj⟩

/-- Putting a key that is there. -/
theorem put_same (he : cells[i]? = some (some e)) (hsame : tie e.1 k = .eq) :
    put n home tie cells k v = cells.set i (some (e.1, v)) := by
  have hhome := hl.home_lt hk
  have hi : i < n := hs.length ▸ (List.getElem?_eq_some_iff.mp he).1
  refine putLoop_same hl hs hk he (hl.symm (hs.keys he) hk hsame) hhome ?_ (by rw [dist_self hhome]; omega)
  exact mem_ring hhome hi (dist_lt hhome) (Nat.le_refl n)

/-- **Putting keeps a table stable.** -/
theorem stable_put (hroom : none ∈ cells) : Stable n home tie P (put n home tie cells k v) := by
  by_cases hnew : Fresh tie cells k
  · exact (put_fresh hl hs hk hroom hnew).1
  · unfold Fresh at hnew
    push Not at hnew
    obtain ⟨i, e, he, hsame⟩ := hnew
    rw [put_same hl hs hk he hsame]
    exact hs.replace he

/-- **A table is a finite map**: what was put under a key is found under it, and nothing else has changed. -/
theorem find_put (hroom : none ∈ cells) (hk' : P k') :
    find n home tie (put n home tie cells k v) k' = if tie k k' = .eq then some v else find n home tie cells k' := by
  have hstable := stable_put (v := v) hl hs hk hroom
  refine Option.ext fun w => ?_
  rw [find_eq_some hl hstable hk']
  by_cases hnew : Fresh tie cells k
  · have hholds := (put_fresh (v := v) hl hs hk hroom hnew).2
    split
    · next hkk =>
      rw [Option.some.injEq]
      constructor
      · rintro ⟨e, he, hsame, rfl⟩
        rcases (hholds e).mp he with rfl | ⟨j, he⟩
        · rfl
        · exact absurd (hl.same_trans (hs.keys he) hk' hk hsame (hl.symm hk hk' hkk)) (hnew j e he)
      · rintro rfl
        exact ⟨(k, v), (hholds _).mpr (Or.inl rfl), hkk, rfl⟩
    · next hkk =>
      rw [find_eq_some hl hs hk']
      refine exists_congr fun e => ⟨fun ⟨he, hsame, hw⟩ => ?_, fun ⟨he, h⟩ => ⟨(hholds e).mpr (Or.inr he), h⟩⟩
      rcases (hholds e).mp he with rfl | he
      · exact absurd hsame hkk
      · exact ⟨he, hsame, hw⟩
  · unfold Fresh at hnew
    push Not at hnew
    obtain ⟨i, e, he, hek⟩ := hnew
    have hi : i < cells.length := (List.getElem?_eq_some_iff.mp he).1
    rw [put_same hl hs hk he hek]
    split
    · next hkk =>
      have hek' := hl.same_trans (hs.keys he) hk hk' hek hkk
      rw [Option.some.injEq]
      constructor
      · rintro ⟨f, ⟨j, hf⟩, hsame, rfl⟩
        rcases (getElem?_fill hi).mp hf with ⟨_, rfl⟩ | ⟨hne, hf⟩
        · rfl
        · exact absurd (hs.apart hf he (hl.same_trans (hs.keys hf) hk' (hs.keys he) hsame
            (hl.symm (hs.keys he) hk' hek'))) hne
      · rintro rfl
        exact ⟨(e.1, v), ⟨i, (getElem?_fill hi).mpr (Or.inl ⟨rfl, rfl⟩)⟩, hek', rfl⟩
    · next hkk =>
      rw [find_eq_some hl hs hk']
      have hother : tie e.1 k' ≠ .eq := fun h =>
        hkk (hl.same_trans hk (hs.keys he) hk' (hl.symm (hs.keys he) hk hek) h)
      constructor
      · rintro ⟨f, ⟨j, hf⟩, hsame, hw⟩
        rcases (getElem?_fill hi).mp hf with ⟨_, rfl⟩ | ⟨_, hf⟩
        · exact absurd hsame hother
        · exact ⟨f, ⟨j, hf⟩, hsame, hw⟩
      · rintro ⟨f, ⟨j, hf⟩, hsame, hw⟩
        refine ⟨f, ⟨j, (getElem?_fill hi).mpr (Or.inr ⟨?_, hf⟩)⟩, hsame, hw⟩
        rintro rfl
        obtain rfl := Option.some.inj (Option.some.inj (hf.symm.trans he))
        exact hother hsame

end Map

end Lib.RobinHood
