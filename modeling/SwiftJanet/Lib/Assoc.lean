import Mathlib.Data.List.Pairwise
import Mathlib.Data.List.Forall2
import Mathlib.Data.List.Induction
import Mathlib.Tactic.Tauto

/-!
# Dictionaries over a key comparison

A dictionary is a list of entries whose keys a comparison `eq` tells apart (`Distinct`). `put` replaces the value of
an equal key and appends a new key; `ofEntries` puts entries one after the other.

- nothing is lost exactly when the keys were distinct to begin with (`length_ofEntries_iff`, `ofEntries_distinct`);
- in general one entry stays for every last entry of its key (`Final`, `ofEntries_final`);
- `lasts` computes those entries (`mem_lasts`);
- `exists_left_of_exists_right` and `length_le_of_partners` are the counting arguments behind dictionary equality.
-/

namespace Lib.Assoc

variable {K W : Type} {eq : K → K → Bool}

/-- Store `w` under `k`. -/
def put (eq : K → K → Bool) : List (K × W) → K → W → List (K × W)
  | [], k, w => [(k, w)]
  | e :: d, k, w => if eq e.1 k then (e.1, w) :: d else e :: put eq d k w

/-- Put entries one after the other into an empty dictionary. -/
def ofEntries (eq : K → K → Bool) (es : List (K × W)) : List (K × W) :=
  es.foldl (fun d e => put eq d e.1 e.2) []

/-- No key equals a later one. -/
def Distinct (eq : K → K → Bool) (es : List (K × W)) : Prop := es.Pairwise fun e f => eq e.1 f.1 = false

/-- The entry `e` of `es` is the last one of its key. -/
def Final (eq : K → K → Bool) (es : List (K × W)) (e : K × W) : Prop :=
  ∃ before after, es = before ++ e :: after ∧ ∀ f ∈ after, eq e.1 f.1 = false

/-- The last entries of their keys, in order. -/
def lasts (eq : K → K → Bool) : List (K × W) → List (K × W)
  | [] => []
  | e :: es => if es.any fun f => eq e.1 f.1 then lasts eq es else e :: lasts eq es

/-- The last entries are the final ones. -/
theorem mem_lasts : ∀ {es : List (K × W)} {e : K × W}, e ∈ lasts eq es ↔ Final eq es e
  | [], e => ⟨fun h => (by cases h), fun ⟨b, a, h, _⟩ => by simp at h⟩
  | g :: es, e => by
    have later : Final eq es e → Final eq (g :: es) e := fun ⟨b, a, h, ha⟩ => ⟨g :: b, a, by simp [h], ha⟩
    -- a final entry of the longer list is the first entry, or a final one of the rest
    have first : Final eq (g :: es) e → (e = g ∧ ∀ f ∈ es, eq g.1 f.1 = false) ∨ Final eq es e := by
      rintro ⟨b, a, h, ha⟩
      cases b with
      | nil => obtain ⟨rfl, rfl⟩ := List.cons.inj h; exact Or.inl ⟨rfl, ha⟩
      | cons x b => exact Or.inr ⟨b, a, (List.cons.inj h).2, ha⟩
    rw [lasts]
    split
    · next hany =>
      obtain ⟨f, hf, hgf⟩ := List.any_eq_true.mp hany
      refine mem_lasts.trans ⟨later, fun h => (first h).resolve_left fun ⟨_, hno⟩ => ?_⟩
      rw [hno f hf] at hgf
      cases hgf
    · next hany =>
      have hno : ∀ f ∈ es, eq g.1 f.1 = false := by simpa using hany
      rw [List.mem_cons, mem_lasts]
      exact ⟨fun h => h.elim (fun he => ⟨[], es, by rw [he]; rfl, he ▸ hno⟩) later,
        fun h => (first h).imp And.left id⟩

/-- The last entries have distinct keys. -/
theorem distinct_lasts : ∀ es : List (K × W), Distinct eq (lasts eq es)
  | [] => List.Pairwise.nil
  | e :: es => by
    rw [lasts]
    split
    · exact distinct_lasts es
    · next hany =>
      have hno : ∀ f ∈ es, eq e.1 f.1 = false := by simpa using hany
      refine List.pairwise_cons.mpr ⟨fun f hf => ?_, distinct_lasts es⟩
      obtain ⟨b, a, h, _⟩ := mem_lasts.mp hf
      exact hno f (by rw [h]; simp)

/-! ## Putting -/

section Put

variable {d es : List (K × W)} {k : K} {w : W}

/-- A key that nothing equals is appended. -/
theorem put_fresh : ∀ {d : List (K × W)}, (∀ e ∈ d, eq e.1 k = false) → put eq d k w = d ++ [(k, w)]
  | [], _ => rfl
  | e :: d, h => by
    rw [put, if_neg (by simp [h e (by simp)]), put_fresh fun f hf => h f (List.mem_cons_of_mem e hf)]
    rfl

/-- The first equal key takes the new value. -/
theorem put_here {before after : List (K × W)} {e : K × W} (hb : ∀ f ∈ before, eq f.1 k = false)
    (he : eq e.1 k = true) : put eq (before ++ e :: after) k w = before ++ (e.1, w) :: after := by
  induction before with
  | nil => simp [put, he]
  | cons f before ih =>
    rw [List.cons_append, put, if_neg (by simp [hb f (by simp)]),
      ih fun g hg => hb g (List.mem_cons_of_mem f hg)]
    rfl

/-- A key is new, or the dictionary splits at the first key it equals. -/
theorem fresh_or_split (eq : K → K → Bool) (k : K) : ∀ d : List (K × W), (∀ e ∈ d, eq e.1 k = false) ∨
    ∃ before e after, d = before ++ e :: after ∧ (∀ f ∈ before, eq f.1 k = false) ∧ eq e.1 k = true
  | [] => Or.inl (by simp)
  | e :: d => by
    by_cases he : eq e.1 k = true
    · exact Or.inr ⟨[], e, d, rfl, by simp, he⟩
    · rcases fresh_or_split eq k d with h | ⟨before, f, after, rfl, hb, hf⟩
      · refine Or.inl fun g hg => ?_
        rcases List.mem_cons.mp hg with rfl | hg
        · simpa using he
        · exact h g hg
      · refine Or.inr ⟨e :: before, f, after, rfl, fun g hg => ?_, hf⟩
        rcases List.mem_cons.mp hg with rfl | hg
        · simpa using he
        · exact hb g hg

/-- Putting keeps the keys distinct. -/
theorem Distinct.put (h : Distinct eq d) : Distinct eq (put eq d k w) := by
  rcases fresh_or_split eq k d with hf | ⟨before, e, after, rfl, hb, he⟩
  · rw [put_fresh hf]
    exact List.pairwise_append.mpr ⟨h, by simp, fun e he f hf' => by simp at hf'; subst hf'; exact hf e he⟩
  · rw [put_here hb he]
    -- only the value at `e` has changed
    unfold Distinct at h ⊢
    simp only [List.pairwise_append, List.pairwise_cons, List.forall_mem_cons] at h ⊢
    exact h

theorem length_put_le : (put eq d k w).length ≤ d.length + 1 := by
  rcases fresh_or_split eq k d with hf | ⟨before, e, after, rfl, hb, he⟩
  · simp [put_fresh hf]
  · simp [put_here hb he]

/-- A dictionary that grows had nothing equal to the new key. -/
theorem fresh_of_length_put (h : (put eq d k w).length = d.length + 1) : ∀ e ∈ d, eq e.1 k = false := by
  rcases fresh_or_split eq k d with hf | ⟨before, e, after, rfl, hb, he⟩
  · exact hf
  · rw [put_here hb he] at h; simp at h

theorem ofEntries_snoc (e : K × W) : ofEntries eq (es ++ [e]) = put eq (ofEntries eq es) e.1 e.2 := by
  simp [ofEntries]

/-- Whatever is put, the keys are distinct in the end. -/
theorem distinct_ofEntries (es : List (K × W)) : Distinct eq (ofEntries eq es) := by
  induction es using List.reverseRecOn with
  | nil => exact List.Pairwise.nil
  | append_singleton es e ih => rw [ofEntries_snoc]; exact ih.put

theorem length_ofEntries_le (es : List (K × W)) : (ofEntries eq es).length ≤ es.length := by
  induction es using List.reverseRecOn with
  | nil => simp [ofEntries]
  | append_singleton es e ih =>
    rw [ofEntries_snoc, List.length_append]
    exact Nat.le_trans length_put_le (by simpa using ih)

/-- Distinct keys are all kept. -/
theorem ofEntries_distinct (h : Distinct eq es) : ofEntries eq es = es := by
  induction es using List.reverseRecOn with
  | nil => rfl
  | append_singleton es e ih =>
    obtain ⟨hes, _, hlast⟩ := List.pairwise_append.mp h
    rw [ofEntries_snoc, ih hes]
    exact put_fresh fun f hf => hlast f hf e (by simp)

/-- Nothing is lost exactly when the keys are distinct. -/
theorem length_ofEntries_iff : (ofEntries eq es).length = es.length ↔ Distinct eq es := by
  refine ⟨fun h => ?_, fun h => by rw [ofEntries_distinct h]⟩
  induction es using List.reverseRecOn with
  | nil => exact List.Pairwise.nil
  | append_singleton es e ih =>
    rw [ofEntries_snoc, List.length_append, List.length_singleton] at h
    have hle : (ofEntries eq es).length ≤ es.length := length_ofEntries_le es
    have hput : (put eq (ofEntries eq es) e.1 e.2).length ≤ (ofEntries eq es).length + 1 := length_put_le
    have hes := ih (by omega)
    have hfresh : ∀ f ∈ ofEntries eq es, eq f.1 e.1 = false := fresh_of_length_put (w := e.2) (by omega)
    rw [ofEntries_distinct hes] at hfresh
    exact List.pairwise_append.mpr ⟨hes, by simp, fun f hf g hg => by simp at hg; subst hg; exact hfresh f hf⟩

/-- Every entry of the result has a key that was put, and a value that was put. -/
theorem mem_ofEntries {es : List (K × W)} {e : K × W} (he : e ∈ ofEntries eq es) :
    (∃ f ∈ es, f.1 = e.1) ∧ ∃ f ∈ es, f.2 = e.2 := by
  induction es using List.reverseRecOn generalizing e with
  | nil => simp [ofEntries] at he
  | append_singleton es g ih =>
    have old : ∀ {e}, e ∈ ofEntries eq es → (∃ f ∈ es ++ [g], f.1 = e.1) ∧ ∃ f ∈ es ++ [g], f.2 = e.2 :=
      fun h => ⟨(ih h).1.imp fun f hf => ⟨by simp [hf.1], hf.2⟩, (ih h).2.imp fun f hf => ⟨by simp [hf.1], hf.2⟩⟩
    rw [ofEntries_snoc] at he
    rcases fresh_or_split eq g.1 (ofEntries eq es) with hf | ⟨before, f, after, hd, hb, hfk⟩
    · rw [put_fresh hf] at he
      rcases List.mem_append.mp he with he | he
      · exact old he
      · obtain rfl := List.mem_singleton.mp he
        exact ⟨⟨g, by simp⟩, ⟨g, by simp⟩⟩
    · rw [hd, put_here hb hfk] at he
      rcases List.mem_append.mp he with he | he
      · exact old (by rw [hd]; exact List.mem_append_left _ he)
      · rcases List.mem_cons.mp he with rfl | he
        · exact ⟨(old (e := f) (by rw [hd]; simp)).1, ⟨g, by simp⟩⟩
        · exact old (by rw [hd]; exact List.mem_append_right _ (List.mem_cons_of_mem f he))

end Put

/-! ## Equal keys -/

section Per

/-- On the keys with `P`, the comparison is symmetric and transitive. -/
structure Per (eq : K → K → Bool) (P : K → Prop) : Prop where
  symm : ∀ {a b}, P a → P b → eq a b = true → eq b a = true
  trans : ∀ {a b c}, P a → P b → P c → eq a b = true → eq b c = true → eq a c = true

/-- The entry `f` of a dictionary stands for the entry `e` that was put: its key is `e`'s or equals it, and its value
is `e`'s. -/
def Stands (eq : K → K → Bool) (f e : K × W) : Prop := (f.1 = e.1 ∨ eq f.1 e.1 = true) ∧ f.2 = e.2

theorem final_snoc {es : List (K × W)} {e g : K × W} :
    Final eq (es ++ [g]) e ↔ e = g ∨ (Final eq es e ∧ eq e.1 g.1 = false) := by
  constructor
  · rintro ⟨before, after, h, ha⟩
    rcases List.eq_nil_or_concat after with rfl | ⟨after, x, rfl⟩
    · exact Or.inl (by simpa using ((List.append_inj' h rfl).2).symm)
    · rw [List.concat_eq_append] at h ha
      rw [← List.cons_append, ← List.append_assoc] at h
      obtain ⟨h1, h2⟩ := List.append_inj' h rfl
      simp only [List.cons.injEq, and_true] at h2
      subst h2
      exact Or.inr ⟨⟨before, after, h1, fun f hf => ha f (by simp [hf])⟩, ha g (by simp)⟩
  · rintro (rfl | ⟨⟨before, after, rfl, ha⟩, hg⟩)
    · exact ⟨es, [], rfl, by simp⟩
    · refine ⟨before, after ++ [g], by simp, fun f hf => ?_⟩
      rcases List.mem_append.mp hf with hf | hf
      · exact ha f hf
      · simp at hf; subst hf; exact hg

/-- **What stays**: one entry for each last entry of its key, and no other. -/
theorem ofEntries_final {P : K → Prop} (hper : Per eq P) : ∀ {es : List (K × W)}, (∀ e ∈ es, P e.1) →
    (∀ f ∈ ofEntries eq es, ∃ e, Final eq es e ∧ Stands eq f e) ∧
      ∀ e, Final eq es e → ∃ f ∈ ofEntries eq es, Stands eq f e := by
  intro es
  induction es using List.reverseRecOn with
  | nil => exact fun _ => ⟨by simp [ofEntries], fun e ⟨b, a, h, _⟩ => by simp at h⟩
  | append_singleton es g ih =>
    intro hP
    have hPes : ∀ e ∈ es, P e.1 := fun e he => hP e (by simp [he])
    have hPg : P g.1 := hP g (by simp)
    have hPd : ∀ f ∈ ofEntries eq es, P f.1 := fun f hf => by
      obtain ⟨⟨e, he, hk⟩, _⟩ := mem_ofEntries hf
      exact hk ▸ hPes e he
    have hPfinal : ∀ e, Final eq es e → P e.1 := fun e ⟨b, a, h, _⟩ => hPes e (by rw [h]; simp)
    obtain ⟨ih1, ih2⟩ := ih hPes
    have hdist : Distinct eq (ofEntries eq es) := distinct_ofEntries es
    rw [ofEntries_snoc]
    -- an entry that stands for `e` equals the new key exactly when `e` does
    have hstands : ∀ f ∈ ofEntries eq es, ∀ e, Final eq es e → Stands eq f e → eq f.1 g.1 = eq e.1 g.1 := by
      intro f hf e he hfe
      rcases hfe.1 with h | h
      · rw [h]
      · have hPf := hPd f hf
        have hPe := hPfinal e he
        rw [Bool.eq_iff_iff]
        exact ⟨fun h' => hper.trans hPe hPf hPg (hper.symm hPf hPe h) h', fun h' => hper.trans hPf hPe hPg h h'⟩
    rcases fresh_or_split eq g.1 (ofEntries eq es) with hf | ⟨before, x, after, hd, hb, hx⟩
    · rw [put_fresh hf]
      constructor
      · intro f hf'
        rcases List.mem_append.mp hf' with hf' | hf'
        · obtain ⟨e, he, hfe⟩ := ih1 f hf'
          exact ⟨e, final_snoc.mpr (Or.inr ⟨he, by rw [← hstands f hf' e he hfe]; exact hf f hf'⟩), hfe⟩
        · obtain rfl := List.mem_singleton.mp hf'
          exact ⟨g, final_snoc.mpr (Or.inl rfl), Or.inl rfl, rfl⟩
      · intro e he
        rcases final_snoc.mp he with rfl | ⟨he, _⟩
        · exact ⟨(e.1, e.2), by simp, Or.inl rfl, rfl⟩
        · obtain ⟨f, hf', hfe⟩ := ih2 e he
          exact ⟨f, by simp [hf'], hfe⟩
    · have hxd : x ∈ ofEntries eq es := by rw [hd]; simp
      -- the entry `x` takes the new value; no other entry has an equal key
      have hother : ∀ f ∈ before ++ after, f ∈ ofEntries eq es ∧ eq f.1 g.1 = false := by
        intro f hf
        have hfd : f ∈ ofEntries eq es := by
          rw [hd]; rcases List.mem_append.mp hf with h | h <;> simp [h]
        refine ⟨hfd, ?_⟩
        rcases List.mem_append.mp hf with h | h
        · exact hb f h
        · rw [hd] at hdist
          have hxf := (List.pairwise_cons.mp (List.pairwise_append.mp hdist).2.1).1 f h
          cases hfg : eq f.1 g.1 with
          | false => rfl
          | true =>
            have := hper.trans (hPd x hxd) hPg (hPd f hfd) hx (hper.symm (hPd f hfd) hPg hfg)
            rw [this] at hxf; cases hxf
      rw [hd, put_here hb hx]
      constructor
      · intro f hf
        by_cases hfx : f ∈ before ++ after
        · obtain ⟨hfd, hfg⟩ := hother f hfx
          obtain ⟨e, he, hfe⟩ := ih1 f hfd
          exact ⟨e, final_snoc.mpr (Or.inr ⟨he, by rw [← hstands f hfd e he hfe]; exact hfg⟩), hfe⟩
        · have : f = (x.1, g.2) := by
            simp only [List.mem_append, List.mem_cons] at hf hfx
            tauto
          subst this
          exact ⟨g, final_snoc.mpr (Or.inl rfl), Or.inr hx, rfl⟩
      · intro e he
        rcases final_snoc.mp he with rfl | ⟨he, heg⟩
        · exact ⟨(x.1, e.2), by simp, Or.inr hx, rfl⟩
        · obtain ⟨f, hf, hfe⟩ := ih2 e he
          have hfg : eq f.1 g.1 = false := by rw [hstands f hf e he hfe]; exact heg
          have hne : f ≠ x := by rintro rfl; rw [hfg] at hx; cases hx
          rw [hd] at hf
          simp only [List.mem_append, List.mem_cons] at hf
          exact ⟨f, by simp only [List.mem_append, List.mem_cons]; tauto, hfe⟩

section Stands

variable {P : K → Prop} (hper : Per eq P) {e f : K × W} (he : P e.1) (hf : P f.1) (h : Stands eq f e)
include hper he hf h

/-- An entry that stands for another compares as that one does. -/
theorem Stands.eq_left {k : K} (hk : P k) : eq f.1 k = true ↔ eq e.1 k = true := by
  rcases h.1 with h' | h'
  · rw [h']
  · exact ⟨fun hfk => hper.trans he hf hk (hper.symm hf he h') hfk, fun hek => hper.trans hf he hk h' hek⟩

theorem Stands.eq_right {k : K} (hk : P k) : eq k f.1 = true ↔ eq k e.1 = true := by
  rcases h.1 with h' | h'
  · rw [h']
  · exact ⟨fun hkf => hper.trans hk hf he hkf h', fun hke => hper.trans hk he hf hke (hper.symm hf he h')⟩

end Stands

/-- Whether keys are distinct does not depend on the order. -/
theorem Distinct.perm {P : K → Prop} (hper : Per eq P) {es fs : List (K × W)} (hP : ∀ e ∈ es, P e.1)
    (hp : es.Perm fs) (h : Distinct eq es) : Distinct eq fs := by
  have hP' : ∀ f ∈ fs, P f.1 := fun f hf => hP f (hp.mem_iff.mpr hf)
  have hsymm : fs.Pairwise fun e f => P e.1 → P f.1 → eq e.1 f.1 = false := by
    refine List.Pairwise.perm (h.imp fun hne _ _ => hne) hp fun {e f} hne hf he => ?_
    by_contra htrue
    rw [Bool.not_eq_false] at htrue
    rw [hper.symm hf he htrue] at hne
    exact absurd (hne he hf) (by decide)
  exact List.Pairwise.imp_of_mem (fun {e f} he hf hne => hne (hP' e he) (hP' f hf)) hsymm

section Lasts

variable {P : K → Prop} (hper : Per eq P) {es fs : List (K × W)} (hes : ∀ e ∈ es, P e.1) (hfs : ∀ f ∈ fs, P f.1)
include hper hes

omit hper in
theorem mem_ofEntries_key {f : K × W} (hf : f ∈ ofEntries eq es) : P f.1 := by
  obtain ⟨⟨e, he, hk⟩, _⟩ := mem_ofEntries hf
  exact hk ▸ hes e he

omit hper in
theorem final_key {e : K × W} (he : Final eq es e) : P e.1 := by
  obtain ⟨b, a, h, _⟩ := he
  exact hes e (by rw [h]; simp)

/-- What an entry shares with the entry it stands for holds of all entries when it holds of the last ones. -/
theorem forall_ofEntries_iff {Q : K × W → Prop}
    (hq : ∀ e f, P e.1 → P f.1 → Stands eq f e → (Q f ↔ Q e)) :
    (∀ f ∈ ofEntries eq es, Q f) ↔ ∀ e ∈ lasts eq es, Q e := by
  obtain ⟨h1, h2⟩ := ofEntries_final hper hes
  constructor
  · intro h e he
    obtain ⟨f, hf, hfe⟩ := h2 e (mem_lasts.mp he)
    exact (hq e f (final_key hes (mem_lasts.mp he)) (mem_ofEntries_key hes hf) hfe).mp (h f hf)
  · intro h f hf
    obtain ⟨e, he, hfe⟩ := h1 f hf
    exact (hq e f (final_key hes he) (mem_ofEntries_key hes hf) hfe).mpr (h e (mem_lasts.mpr he))

theorem exists_ofEntries_iff {Q : K × W → Prop}
    (hq : ∀ e f, P e.1 → P f.1 → Stands eq f e → (Q f ↔ Q e)) :
    (∃ f ∈ ofEntries eq es, Q f) ↔ ∃ e ∈ lasts eq es, Q e := by
  have h := forall_ofEntries_iff hper hes (Q := fun e => ¬Q e) fun e f he hf hfe => not_congr (hq e f he hf hfe)
  simpa only [not_forall, not_not, exists_prop] using not_congr h

include hfs

/-- **Whether the entries of one dictionary are found in another depends on the last entries only.** -/
theorem ofEntries_found_iff (same : W → W → Bool) :
    (∀ e ∈ ofEntries eq es, ∃ f ∈ ofEntries eq fs, eq e.1 f.1 = true ∧ same e.2 f.2 = true) ↔
      ∀ e ∈ lasts eq es, ∃ f ∈ lasts eq fs, eq e.1 f.1 = true ∧ same e.2 f.2 = true := by
  rw [forall_ofEntries_iff hper hes]
  · refine forall₂_congr fun e he => exists_ofEntries_iff hper hfs fun f d hf hd hdf => ?_
    rw [hdf.eq_right hper hf hd (final_key hes (mem_lasts.mp he)), hdf.2]
  · intro e d he hd hde
    refine exists_congr fun f => and_congr_right fun hf => ?_
    rw [hde.eq_left hper he hd (mem_ofEntries_key hfs hf), hde.2]

theorem ofEntries_covered_iff (same : W → W → Bool) :
    (∀ f ∈ ofEntries eq fs, ∃ e ∈ ofEntries eq es, eq e.1 f.1 = true ∧ same e.2 f.2 = true) ↔
      ∀ f ∈ lasts eq fs, ∃ e ∈ lasts eq es, eq e.1 f.1 = true ∧ same e.2 f.2 = true := by
  rw [forall_ofEntries_iff hper hfs]
  · refine forall₂_congr fun f hf => exists_ofEntries_iff hper hes fun e d he hd hde => ?_
    rw [hde.eq_left hper he hd (final_key hfs (mem_lasts.mp hf)), hde.2]
  · intro f d hf hd hdf
    refine exists_congr fun e => and_congr_right fun he => ?_
    rw [hdf.eq_right hper hf hd (mem_ofEntries_key hes he), hdf.2]

end Lasts

end Per

/-! ## Counting -/

/-- When every `x` has a partner and no two share one, there are at least as many `y`s. -/
theorem length_le_of_partners {α β : Type} {R : α → β → Prop} : ∀ {xs : List α} {ys : List β},
    (∀ x ∈ xs, ∃ y ∈ ys, R x y) → xs.Pairwise (fun x x' => ∀ y ∈ ys, R x y → ¬R x' y) → xs.length ≤ ys.length
  | [], ys, _, _ => Nat.zero_le _
  | x :: xs, ys, hex, hpair => by
    obtain ⟨y, hy, hxy⟩ := hex x (by simp)
    obtain ⟨left, right, rfl⟩ := List.append_of_mem hy
    obtain ⟨hx, hrest⟩ := List.pairwise_cons.mp hpair
    have hsub : ∀ z ∈ left ++ right, z ∈ left ++ y :: right := fun z hz => by
      simp only [List.mem_append, List.mem_cons] at hz ⊢; tauto
    have hex' : ∀ x' ∈ xs, ∃ y' ∈ left ++ right, R x' y' := by
      intro x' hx'
      obtain ⟨y', hy', hR⟩ := hex x' (List.mem_cons_of_mem x hx')
      have hne : y' ≠ y := by rintro rfl; exact hx x' hx' y' hy' hxy hR
      refine ⟨y', ?_, hR⟩
      simp only [List.mem_append, List.mem_cons] at hy' ⊢
      tauto
    have := length_le_of_partners hex' (hrest.imp fun h y' hy' => h y' (hsub y' hy'))
    simp at this ⊢
    omega

/-- Lists of the same length: when every `x` has a partner and no two share one, every `y` has a partner too. -/
theorem exists_left_of_exists_right {α β : Type} {R : α → β → Prop} {xs : List α} {ys : List β}
    (hlen : xs.length = ys.length) (hex : ∀ x ∈ xs, ∃ y ∈ ys, R x y)
    (hpair : xs.Pairwise fun x x' => ∀ y ∈ ys, R x y → ¬R x' y) : ∀ y ∈ ys, ∃ x ∈ xs, R x y := by
  intro z hz
  by_contra hno
  push Not at hno
  -- without a partner for `z` the others would have to do with one partner less
  obtain ⟨left, right, rfl⟩ := List.append_of_mem hz
  have hsub : ∀ y ∈ left ++ right, y ∈ left ++ z :: right := fun y hy => by
    simp only [List.mem_append, List.mem_cons] at hy ⊢; tauto
  have hex' : ∀ x ∈ xs, ∃ y ∈ left ++ right, R x y := by
    intro x hx
    obtain ⟨y, hy, hxy⟩ := hex x hx
    have hne : y ≠ z := by rintro rfl; exact hno x hx hxy
    refine ⟨y, ?_, hxy⟩
    simp only [List.mem_append, List.mem_cons] at hy ⊢
    tauto
  have := length_le_of_partners hex' (hpair.imp fun h y hy => h y (hsub y hy))
  simp at this hlen
  omega

/-! ## Lists in step -/

/-- Pairs laid out one after the other are in step exactly when the pairs are. -/
theorem forall₂_flatMap_pair {A B C D : Type} {S : C → D → Prop} {f g : A → C} {f' g' : B → D} :
    ∀ {xs : List A} {ys : List B}, List.Forall₂ S (xs.flatMap fun x => [f x, g x]) (ys.flatMap fun y => [f' y, g' y]) ↔
      List.Forall₂ (fun x y => S (f x) (f' y) ∧ S (g x) (g' y)) xs ys
  | [], [] => by simp
  | [], _ :: _ => by simp
  | _ :: _, [] => by simp
  | x :: xs, y :: ys => by
    simp only [List.flatMap_cons, List.cons_append, List.nil_append, List.forall₂_cons,
      @forall₂_flatMap_pair _ _ _ _ S f g f' g' xs ys, and_assoc]

/-- Every element of the first list has its partner in the second. -/
theorem partner_of_mem {A B : Type} {S : A → B → Prop} {xs : List A} {ys : List B} {x : A} (h : List.Forall₂ S xs ys)
    (hx : x ∈ xs) : ∃ y ∈ ys, S x y := by
  induction h with
  | nil => cases hx
  | @cons a b xs ys hab _ ih =>
    rcases List.mem_cons.mp hx with rfl | hx
    · exact ⟨b, by simp, hab⟩
    · obtain ⟨y, hy, hxy⟩ := ih hx
      exact ⟨y, List.mem_cons_of_mem b hy, hxy⟩

/-- Some element of the second list is found by a test. -/
theorem exists_forall₂ {A B : Type} {S : A → B → Prop} {xs : List A} {ys : List B} (h : List.Forall₂ S xs ys)
    {P : A → Prop} {Q : B → Prop} (hpq : ∀ x y, S x y → (P x ↔ Q y)) : (∃ x ∈ xs, P x) ↔ ∃ y ∈ ys, Q y := by
  induction h with
  | nil => simp
  | cons hxy _ ih => simp [hpq _ _ hxy, ih]

theorem forall_forall₂ {A B : Type} {S : A → B → Prop} {xs : List A} {ys : List B} (h : List.Forall₂ S xs ys)
    {P : A → Prop} {Q : B → Prop} (hpq : ∀ x y, S x y → (P x ↔ Q y)) : (∀ x ∈ xs, P x) ↔ ∀ y ∈ ys, Q y := by
  induction h with
  | nil => simp
  | cons hxy _ ih => simp [hpq _ _ hxy, ih]

/-- What two elements of the first list have in common their partners have too. -/
theorem pairwise_of_forall₂ {A B : Type} {S : A → B → Prop} {xs : List A} {ys : List B} (h : List.Forall₂ S xs ys)
    {P : A → A → Prop} {Q : B → B → Prop} (hpq : ∀ x y x' y', S x y → S x' y' → P x x' → Q y y')
    (hp : xs.Pairwise P) : ys.Pairwise Q := by
  induction h with
  | nil => exact .nil
  | @cons x y xs ys hxy hs ih =>
    obtain ⟨hx, hp⟩ := List.pairwise_cons.mp hp
    refine .cons (fun y' hy' => ?_) (ih hp)
    obtain ⟨x', hx', hxy'⟩ := partner_of_mem hs.flip hy'
    exact hpq x y x' y' hxy hxy' (hx x' hx')

theorem pairwise_forall₂ {A B : Type} {S : A → B → Prop} {xs : List A} {ys : List B} (h : List.Forall₂ S xs ys)
    {P : A → A → Prop} {Q : B → B → Prop} (hpq : ∀ x y x' y', S x y → S x' y' → (P x x' ↔ Q y y')) :
    xs.Pairwise P ↔ ys.Pairwise Q :=
  ⟨pairwise_of_forall₂ h fun x y x' y' hxy hxy' => (hpq x y x' y' hxy hxy').mp,
    pairwise_of_forall₂ h.flip fun y x y' x' hxy hxy' => (hpq x y x' y' hxy hxy').mpr⟩

/-- Results that exist for each pair, as a list. -/
theorem forall₂_exists {A B D : Type} {R : A → D → Prop} {S : B → D → Prop} {xs : List A} {ys : List B}
    (h : List.Forall₂ (fun x y => ∃ z, R x z ∧ S y z) xs ys) : ∃ zs, List.Forall₂ R xs zs ∧ List.Forall₂ S ys zs := by
  induction h with
  | nil => exact ⟨[], .nil, .nil⟩
  | cons hxy _ ih =>
    obtain ⟨z, hx, hy⟩ := hxy
    obtain ⟨zs, hxs, hys⟩ := ih
    exact ⟨z :: zs, .cons hx hxs, .cons hy hys⟩

/-- Where one list has the only results, the other is that list. -/
theorem forall₂_only {α β : Type} {R S : α → β → Prop} {xs : List α} {ys zs : List β} (hs : List.Forall₂ S xs ys)
    (h : ∀ x ∈ xs, ∀ y, S x y → ∀ z, R x z ↔ z = y) : List.Forall₂ R xs zs ↔ zs = ys := by
  induction hs generalizing zs with
  | nil => exact List.forall₂_nil_left_iff
  | @cons x y xs ys hxy _ ih =>
    have hx := h x (by simp) y hxy
    have hxs := fun {zs} => @ih zs fun x hx => h x (List.mem_cons_of_mem _ hx)
    cases zs with
    | nil => simp
    | cons z zs => rw [List.forall₂_cons, hx, hxs, List.cons.injEq]

/-- Related lists give results that are related in their turn. -/
theorem forall₂_results {α β γ δ : Type} {R : α → β → Prop} {S : α → γ → Prop} {T : β → δ → Prop} {U : γ → δ → Prop}
    {xs : List α} {ys : List β} {us : List γ} (hxy : List.Forall₂ R xs ys) (hxu : List.Forall₂ S xs us)
    (h : ∀ x ∈ xs, ∀ y u, R x y → S x u → ∃ w, T y w ∧ U u w) :
    ∃ ws, List.Forall₂ T ys ws ∧ List.Forall₂ U us ws := by
  induction hxy generalizing us with
  | nil =>
    cases hxu
    exact ⟨[], .nil, .nil⟩
  | @cons x y xs ys hxy _ ih =>
    cases hxu with
    | @cons _ u _ us hxu hus =>
      obtain ⟨w, hw, huw⟩ := h x (by simp) y u hxy hxu
      obtain ⟨ws, hws, huws⟩ := ih hus fun x hx => h x (List.mem_cons_of_mem _ hx)
      exact ⟨w :: ws, .cons hw hws, .cons huw huws⟩

end Lib.Assoc
