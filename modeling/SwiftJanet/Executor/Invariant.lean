import SwiftJanet.Executor.SharedState

/-!
# The invariant of the executor

`Inv n s` says what holds of a reachable state (`n = 0`), and of one in which `n` references are about to be dropped:
who holds the lock, what the reference count is made of, that calls in progress are made by threads with a reference,
that `stop` comes after the last reference, that the queue is in order, and what the worker knows when it exits.

`inv_step`: every action keeps the invariant; `reachable_inv`: it holds in every reachable state.
-/

namespace SwiftJanet.Executor

variable {C : Type}

/-! ## The invariant -/

/-- Some thread is about to signal the condition. -/
def State.Signalling (s : State C) : Prop := ∃ t c, s.call t = some (c, .signal)

/-- What has been recorded of the exit handler. -/
def State.ExitLog (s : State C) : Prop :=
  match s.run with
  | .handling h => s.onExit = some h ∧ s.exits = [(h, .worker)]
  | .returned => s.exits = (s.onExit.map fun h => (h, (Thread.worker : Thread C))).toList
  | _ => s.exits = []

/-- What the worker has taken along when it leaves the critical section. -/
def State.Taken (s : State C) : Prop :=
  match s.run with
  | .unlocking batch true onExit | .branching batch true onExit => batch = [] ∧ onExit = s.onExit
  | _ => True

/-- A job that some call has yet to append. -/
def State.ToAppend (s : State C) (t : Thread C) (job : Job) : Prop :=
  ∃ p, s.call t = some (.enqueue job, p) ∧ (p = .lock ∨ p = .write)

/-- The invariant, with `n` references that are not accounted for. -/
structure Inv (n : Nat) (s : State C) : Prop where
  refs : s.refs = s.handles.length + s.jobs.length + s.run.held + n
  lock : ∀ t, s.lock = some t ↔
    (∃ c p, s.call t = some (c, p) ∧ p ≠ .lock) ∨ (t = .worker ∧ s.run.locked = true)
  inCode : s.call .worker ≠ none → s.run.inCode = true
  referenced : ∀ t c p, s.call t = some (c, p) → c ≠ .stop → s.Referenced t
  dead : s.stopped = true → s.refs = 0
  stop : ∀ t p, s.call t = some (.stop, p) → s.refs = 0
  toStop : ∀ t p, s.call t = some (.stop, p) → p = .lock ∨ p = .write → s.stopped = false
  oneStop : ∀ t t' p p', s.call t = some (.stop, p) → s.call t' = some (.stop, p') → t = t'
  wake : s.run = .waiting → (s.jobs = [] ∧ s.stopped = false) ∨ s.Signalling
  batch : ∀ b, s.run = .emptying b → b = s.jobs
  room : s.run.toRun.length + s.run.current.toList.length ≤ s.run.held
  order : s.enqueued = s.started.map Prod.fst ++ s.run.toRun ++ s.jobs
  finished : s.started.map Prod.fst = s.finished ++ s.run.current.toList
  onWorker : ∀ e ∈ s.started, e.2 = .worker
  thread : s.thread = if s.run.unregistered then none else some .worker
  alive : s.run ≠ .trapped
  exiting : s.run.exiting = true → s.stopped = true ∧ ∀ t, s.call t = none
  taken : s.Taken
  exits : s.ExitLog
  onExit : s.onExit = s.passed.getLast?
  fresh : ∀ t job, s.ToAppend t job → job < s.nextJob ∧ job ∉ s.enqueued
  apart : ∀ t t' job, s.ToAppend t job → s.ToAppend t' job → t = t'
  used : ∀ job ∈ s.enqueued, job < s.nextJob
  nodup : s.enqueued.Nodup
  answered : ∀ t b, s.answer t = some b → (b = true ↔ t = .worker)

theorem inv_initial (creator : C) : Inv 0 (State.initial creator) where
  refs := rfl
  lock t := by simp [State.initial, Run.locked]
  inCode h := absurd rfl h
  referenced _ _ _ h := by cases h
  dead h := by cases h
  stop _ _ h := by cases h
  toStop _ _ h := by cases h
  oneStop _ _ _ _ h := by cases h
  wake h := by cases h
  batch _ h := by cases h
  room := Nat.le_refl _
  order := rfl
  finished := rfl
  onWorker _ h := by cases h
  thread := rfl
  alive h := by cases h
  exiting h := by cases h
  taken := trivial
  exits := rfl
  onExit := rfl
  fresh := fun _ _ ⟨_, h, _⟩ => (nomatch h)
  apart := fun _ _ _ ⟨_, h, _⟩ => (nomatch h)
  used _ h := by cases h
  nodup := .nil
  answered _ _ h := by cases h

/-! ## Where the worker is -/

namespace Run

variable {r : Run}

theorem not_locked_of_inCode (h : r.inCode = true) : r.locked = false := by
  cases r <;> first | rfl | cases h

theorem inCode_of_inBody (h : r.inBody = true) : r.inCode = true := by
  cases r <;> first | rfl | cases h

theorem not_inCode_of_takesLock (h : r.takesLock = true) : r.inCode = false := by
  cases r <;> first | rfl | cases h

theorem not_locked_of_takesLock (h : r.takesLock = true) : r.locked = false := by
  cases r <;> first | rfl | cases h

end Run

section Steps

variable {s s' : State C} {n : Nat} {t : Thread C} {c : Call} {p : Phase}

theorem call_setCall [DecidableEq C] (s : State C) (t t' : Thread C) (c : Option (Call × Phase)) :
    (s.setCall t c).call t' = if t' = t then c else s.call t' := Function.update_apply ..

/-- Whoever can use the executor keeps it alive. -/
theorem Inv.refs_pos (h : Inv n s) (hr : s.Referenced t) : 0 < s.refs := by
  rw [h.refs]
  rcases hr with hr | ⟨_, hr⟩
  · have := List.length_pos_of_mem hr
    omega
  · have hroom := h.room
    cases hrun : s.run with
    | running batch job rest => rw [hrun] at hroom; simp [Run.current] at hroom; omega
    | _ => rw [hrun] at hr; cases hr

theorem Inv.not_stopped (h : Inv n s) (hr : 0 < s.refs) : s.stopped = false := by
  by_contra hs
  have := h.dead (by simpa using hs)
  omega

theorem Inv.no_stop (h : Inv n s) (hr : 0 < s.refs) (t : Thread C) (p : Phase) : s.call t ≠ some (.stop, p) := by
  intro hc
  have := h.stop t p hc
  omega

theorem Inv.not_exiting (h : Inv n s) (hr : 0 < s.refs) : s.run.exiting = false := by
  by_contra he
  have hs := (h.exiting (by simpa using he)).1
  rw [h.not_stopped hr] at hs
  cases hs

/-- While a call is in progress the worker is not exiting. -/
theorem Inv.not_exiting_of_call (h : Inv n s) (hc : s.call t = some (c, p)) : s.run.exiting = false := by
  by_contra he
  rw [(h.exiting (by simpa using he)).2 t] at hc
  cases hc

/-- Only one thread holds the lock. -/
theorem Inv.holder (h : Inv n s) (hc : s.call t = some (c, p)) (hp : p ≠ .lock) : s.lock = some t :=
  (h.lock t).mpr (Or.inl ⟨c, p, hc, hp⟩)

/-- While a call holds the lock the worker is outside its critical sections. -/
theorem Inv.not_locked (h : Inv n s) (hc : s.call t = some (c, p)) (hp : p ≠ .lock) : s.run.locked = false := by
  by_contra hl
  have hw := (h.lock .worker).mpr (Or.inr ⟨rfl, by simpa using hl⟩)
  rw [h.holder hc hp] at hw
  obtain rfl := Option.some.inj hw
  exact hl (Run.not_locked_of_inCode (h.inCode (by simp [hc])))

/-! ## The worker moves on -/

/-- The two points of `run` have the same jobs and references. -/
structure Run.Same (r r' : Run) : Prop where
  held : r'.held = r.held
  toRun : r'.toRun = r.toRun
  current : r'.current = r.current
  unregistered : r'.unregistered = r.unregistered

/-- The lock as it is once the worker is at `r`. -/
def State.LockedAt (s : State C) (r : Run) (l : Option (Thread C)) : Prop :=
  ∀ t, l = some t ↔ (∃ c p, s.call t = some (c, p) ∧ p ≠ .lock) ∨ (t = .worker ∧ r.locked = true)

theorem Inv.keep (h : Inv n s) {r : Run} (hr : r.locked = s.run.locked) : s.LockedAt r s.lock := fun t => by
  rw [hr]; exact h.lock t

/-- The worker takes a lock that nobody holds. -/
theorem Inv.take (h : Inv n s) {r : Run} (hl : s.lock = none) (hr : r.locked = true) : s.LockedAt r (some .worker) := by
  refine fun t => ⟨fun ht => Or.inr ⟨(Option.some.inj ht).symm, hr⟩, ?_⟩
  rintro (⟨c, p, hc, hp⟩ | ⟨rfl, _⟩)
  · have := h.holder hc hp
    rw [hl] at this
    cases this
  · rfl

/-- The worker gives its lock back. -/
theorem Inv.give (h : Inv n s) {r : Run} (hr : s.run.locked = true) (hr' : r.locked = false) : s.LockedAt r none := by
  refine fun t => ⟨fun ht => (nomatch ht), ?_⟩
  rintro (⟨c, p, hc, hp⟩ | ⟨_, hlocked⟩)
  · rw [h.not_locked hc hp] at hr
    cases hr
  · rw [hr'] at hlocked
    cases hlocked

/-- While the worker is not exiting the handler has not been called. -/
theorem Inv.no_exits (h : Inv n s) (he : s.run.exiting = false) : s.exits = [] := by
  have hlog := h.exits
  rw [State.ExitLog] at hlog
  cases hrun : s.run <;> rw [hrun] at he hlog <;> first | exact hlog | cases he

/-- Calls by the worker would be in progress. -/
theorem Inv.referenced_of_idle {r : Run} (h : Inv n s) (hc : s.call .worker = none) (hct : s.call t = some (c, p))
    (hne : c ≠ .stop) : Holder.thread t ∈ s.handles ∨ (t = .worker ∧ r.inJob = true) := by
  refine (h.referenced t c p hct hne).imp id ?_
  rintro ⟨rfl, _⟩
  rw [hc] at hct
  cases hct

/-- The worker neither waits nor copies the queue, and has not decided to exit. -/
def Run.plain : Run → Bool
  | waiting | emptying _ | handling _ | returned | trapped => false
  | unlocking _ shouldExit _ | branching _ shouldExit _ => !shouldExit
  | _ => true

theorem Run.not_exiting_of_plain {r : Run} (h : r.plain = true) : r.exiting = false := by
  cases r with
  | unlocking b e o | branching b e o => exact Bool.not_eq_true' e ▸ h
  | handling f | returned => cases h
  | _ => rfl

/-- A worker that is not exiting has taken nothing along that matters later. -/
theorem taken_of_not_exiting (h : s.run.exiting = false) : s.Taken := by
  unfold State.Taken
  cases hrun : s.run with
  | unlocking b e o | branching b e o =>
    cases e with
    | false => trivial
    | true => rw [hrun] at h; cases h
  | _ => trivial

theorem exitLog_of_not_exiting (h : s.run.exiting = false) (hno : s.exits = []) : s.ExitLog := by
  unfold State.ExitLog
  cases hrun : s.run with
  | handling f | returned => rw [hrun] at h; cases h
  | _ => exact hno

/-- The worker moves on to a plain point; its jobs, its references and the lock have to be right there. -/
theorem inv_plain {r : Run} {l th : Option (Thread C)} {js f : List Job} {st : List (Job × Thread C)} {m : Nat}
    (h : Inv n s) (hc : s.call .worker = none) (hexit : s.run.exiting = false) (hr : r.plain = true)
    (hrefs : s.refs = s.handles.length + js.length + r.held + m) (hl : s.LockedAt r l)
    (hroom : r.toRun.length + r.current.toList.length ≤ r.held)
    (horder : s.enqueued = st.map Prod.fst ++ r.toRun ++ js) (hfin : st.map Prod.fst = f ++ r.current.toList)
    (hon : ∀ e ∈ st, e.2 = .worker) (hthread : th = if r.unregistered then none else some .worker) :
    Inv m { s with lock := l, jobs := js, thread := th, started := st, finished := f, run := r } :=
  { h with
    refs := hrefs
    lock := hl
    inCode := fun hne => absurd hc hne
    referenced := fun t c p hct hne => h.referenced_of_idle hc hct hne
    wake := fun hw => by rw [show r = .waiting from hw] at hr; cases hr
    batch := fun b hb => by rw [show r = .emptying b from hb] at hr; cases hr
    room := hroom
    order := horder
    finished := hfin
    onWorker := hon
    thread := hthread
    alive := fun ht => by rw [show r = .trapped from ht] at hr; cases hr
    exiting := fun he => (nomatch (Run.not_exiting_of_plain hr).symm.trans he)
    taken := taken_of_not_exiting (Run.not_exiting_of_plain hr)
    exits := exitLog_of_not_exiting (Run.not_exiting_of_plain hr) (h.no_exits hexit) }

/-- The worker moves on to a plain point and takes its jobs along. -/
theorem inv_pass {r₀ r : Run} {l : Option (Thread C)} (h : Inv n s) (hc : s.call .worker = none) (hrun : s.run = r₀)
    (hsame : r₀.Same r) (hexit : r₀.exiting = false) (hr : r.plain = true) (hl : s.LockedAt r l) :
    Inv n { s with run := r, lock := l } := by
  subst hrun
  refine inv_plain h hc hexit hr ?_ hl ?_ ?_ ?_ h.onWorker ?_
  · rw [hsame.held]; exact h.refs
  · rw [hsame.held, hsame.toRun, hsame.current]; exact h.room
  · rw [hsame.toRun]; exact h.order
  · rw [hsame.current]; exact h.finished
  · rw [hsame.unregistered]; exact h.thread

/-! ## References -/

/-- What a holder can hand on keeps the executor alive. -/
theorem Inv.refs_pos_of_shares (h : Inv n s) {src : Holder C} (hs : s.Shares src) : 0 < s.refs := by
  cases src with
  | thread t => exact h.refs_pos hs.2
  | object =>
    rw [h.refs]
    have := List.length_pos_of_mem hs
    omega

/-- Handing out a reference. -/
theorem inv_retain (h : Inv 0 s) (hpos : 0 < s.refs) (dst : Holder C) :
    Inv 0 { s with handles := dst :: s.handles, refs := s.refs + 1 } :=
  { h with
    refs := by have := h.refs; simp only [List.length_cons]; omega
    referenced := fun t' c p hc hne => (h.referenced t' c p hc hne).imp (List.mem_cons_of_mem dst) id
    dead := fun hs => by rw [h.not_stopped hpos] at hs; cases hs
    stop := fun t' p hc => absurd hc (h.no_stop hpos t' p) }

/-- An object goes away, and its reference becomes the thread's. -/
theorem inv_take_handle [DecidableEq C] (h : Inv n s) (ht : .object ∈ s.handles) :
    Inv n { s with handles := .thread t :: s.handles.erase .object } :=
  { h with
    refs := by
      have hrefs := h.refs
      have := List.length_pos_of_mem ht
      simp only [List.length_cons, List.length_erase_of_mem ht]
      omega
    referenced := fun t' c p hc hne => by
      refine (h.referenced t' c p hc hne).imp (fun hm => ?_) id
      have hne : Holder.thread t' ≠ .object := fun h => (nomatch h)
      exact List.mem_cons_of_mem _ ((List.mem_erase_of_ne hne).mpr hm) }

/-! ## Calls -/

/-- A call that begins does not touch anything yet. -/
theorem inv_begin [DecidableEq C] (h : Inv n s) (hcall : s.call t = none) (hcode : t = .worker → s.run.inCode = true)
    (href : c ≠ .stop → s.Referenced t)
    (hstop : c = .stop → s.refs = 0 ∧ s.stopped = false ∧ ∀ t' p, s.call t' ≠ some (.stop, p))
    (hexit : s.run.exiting = false)
    (hfresh : ∀ job, c = .enqueue job → (job < s.nextJob ∧ job ∉ s.enqueued) ∧ ∀ t', ¬s.ToAppend t' job) :
    Inv n (s.setCall t (some (c, .lock))) := by
  have cases' : ∀ {t' c' p'}, (s.setCall t (some (c, .lock))).call t' = some (c', p') →
      (t' = t ∧ c' = c ∧ p' = .lock) ∨ s.call t' = some (c', p') := by
    intro t' c' p' hc
    rw [call_setCall] at hc
    split at hc
    · next ht => cases hc; exact Or.inl ⟨ht, rfl, rfl⟩
    · exact Or.inr hc
  have keep : ∀ {t' c' p'}, s.call t' = some (c', p') → (s.setCall t (some (c, .lock))).call t' = some (c', p') := by
    intro t' c' p' hc
    rw [call_setCall, if_neg]
    · exact hc
    · rintro rfl
      rw [hcall] at hc
      cases hc
  have append : ∀ {t' job}, (s.setCall t (some (c, .lock))).ToAppend t' job →
      (t' = t ∧ c = .enqueue job) ∨ s.ToAppend t' job := by
    rintro t' job ⟨q, hc, hq⟩
    rcases cases' hc with ⟨ht, hc, _⟩ | hc
    · exact Or.inl ⟨ht, hc.symm⟩
    · exact Or.inr ⟨q, hc, hq⟩
  exact
    { h with
      lock := fun t' => by
        rw [show (s.setCall t (some (c, .lock))).lock = s.lock from rfl, h.lock t']
        refine or_congr ⟨fun ⟨c', p', hc, hp⟩ => ⟨c', p', keep hc, hp⟩, fun ⟨c', p', hc, hp⟩ => ?_⟩ Iff.rfl
        rcases cases' hc with ⟨_, _, rfl⟩ | hc
        · exact absurd rfl hp
        · exact ⟨c', p', hc, hp⟩
      inCode := fun hc => by
        by_cases ht : t = .worker
        · exact hcode ht
        · rw [call_setCall, if_neg (Ne.symm ht)] at hc
          exact h.inCode hc
      referenced := fun t' c' p' hc hne => by
        rcases cases' hc with ⟨rfl, rfl, _⟩ | hc
        · exact href hne
        · exact h.referenced t' c' p' hc hne
      stop := fun t' p' hc => by
        rcases cases' hc with ⟨_, hc, _⟩ | hc
        · exact (hstop hc.symm).1
        · exact h.stop t' p' hc
      toStop := fun t' p' hc hp => by
        rcases cases' hc with ⟨_, hc, _⟩ | hc
        · exact (hstop hc.symm).2.1
        · exact h.toStop t' p' hc hp
      oneStop := fun t₁ t₂ p₁ p₂ h₁ h₂ => by
        rcases cases' h₁ with ⟨ht₁, hc₁, _⟩ | h₁
        · rcases cases' h₂ with ⟨ht₂, _, _⟩ | h₂
          · rw [ht₁, ht₂]
          · exact absurd h₂ ((hstop hc₁.symm).2.2 t₂ p₂)
        · rcases cases' h₂ with ⟨_, hc₂, _⟩ | h₂
          · exact absurd h₁ ((hstop hc₂.symm).2.2 t₁ p₁)
          · exact h.oneStop t₁ t₂ p₁ p₂ h₁ h₂
      wake := fun hw => (h.wake hw).imp id fun ⟨t', c', hc⟩ => ⟨t', c', keep hc⟩
      exiting := fun he => (nomatch hexit.symm.trans he)
      fresh := fun t' job ha => by
        rcases append ha with ⟨_, hc⟩ | ha
        · exact (hfresh job hc).1
        · exact h.fresh t' job ha
      apart := fun t₁ t₂ job h₁ h₂ => by
        rcases append h₁ with ⟨ht₁, hc₁⟩ | h₁
        · rcases append h₂ with ⟨ht₂, _⟩ | h₂
          · rw [ht₁, ht₂]
          · exact absurd h₂ ((hfresh job hc₁).2 t₂)
        · rcases append h₂ with ⟨_, hc₂⟩ | h₂
          · exact absurd h₁ ((hfresh job hc₂).2 t₁)
          · exact h.apart t₁ t₂ job h₁ h₂ }

/-- Dropping the references that are not accounted for; the last one starts `stop`. -/
theorem inv_drop [DecidableEq C] (h : Inv n s) (hcall : s.call t = none)
    (hlast : 0 < n → s.refs = n → t = .worker → s.run.inCode = true) : Inv 0 (s.drop t n) := by
  have hrefs := h.refs
  have hdrop : Inv 0 { s with refs := s.refs - n } :=
    { h with
      refs := by simp only; omega
      dead := fun hs => by have := h.dead hs; simp only; omega
      stop := fun t' p hc => by have := h.stop t' p hc; simp only; omega }
  unfold State.drop
  split
  · next hz =>
    have hpos : 0 < s.refs := by omega
    exact inv_begin hdrop hcall (hlast hz.1 (by omega)) (fun hne => absurd rfl hne)
      (fun _ => ⟨hz.2, h.not_stopped hpos, h.no_stop hpos⟩) (h.not_exiting hpos) fun _ hc => (nomatch hc)
  · exact hdrop

/-- The calls in progress once the call of `t` is at `p'`. -/
theorem call_move [DecidableEq C] {c c' : Call} {t t' : Thread C} {p' q : Phase} (h : (s.setCall t (some (c, p'))).call t' = some (c', q)) :
    (t' = t ∧ c' = c ∧ q = p') ∨ (t' ≠ t ∧ s.call t' = some (c', q)) := by
  rw [call_setCall] at h
  split at h
  · next ht => cases h; exact Or.inl ⟨ht, rfl, rfl⟩
  · next ht => exact Or.inr ⟨ht, h⟩

/-- A call moves on, with the lock in the hands that `hl` says. -/
theorem inv_phase [DecidableEq C] {p' : Phase} {l : Option (Thread C)} (h : Inv n s) (hc : s.call t = some (c, p))
    (hl : ∀ t', l = some t' ↔ (∃ c' q, (s.setCall t (some (c, p'))).call t' = some (c', q) ∧ q ≠ .lock) ∨
      (t' = .worker ∧ s.run.locked = true))
    (hp : p' = .lock ∨ p' = .write → p = .lock ∨ p = .write) (hw : p = .signal → s.run ≠ .waiting) :
    Inv n { s.setCall t (some (c, p')) with lock := l } := by
  -- a call in progress was in progress
  have back : ∀ {t' c' q}, (s.setCall t (some (c, p'))).call t' = some (c', q) →
      ∃ q', s.call t' = some (c', q') ∧ (q = .lock ∨ q = .write → q' = .lock ∨ q' = .write) := by
    intro t' c' q hc'
    rcases call_move hc' with ⟨rfl, rfl, rfl⟩ | ⟨_, hc'⟩
    · exact ⟨p, hc, hp⟩
    · exact ⟨q, hc', id⟩
  have append : ∀ {t' job}, State.ToAppend { s.setCall t (some (c, p')) with lock := l } t' job → s.ToAppend t' job := by
    rintro t' job ⟨q, hc', hq⟩
    obtain ⟨q', hc', hq'⟩ := back hc'
    exact ⟨q', hc', hq' hq⟩
  exact
    { h with
      lock := hl
      inCode := fun hw => by
        obtain ⟨⟨c', q⟩, hc'⟩ := Option.ne_none_iff_exists'.mp hw
        obtain ⟨q', hc', _⟩ := back hc'
        exact h.inCode (by simp [hc'])
      referenced := fun t' c' q hc' hne => by
        obtain ⟨q', hc', _⟩ := back hc'
        exact h.referenced t' c' q' hc' hne
      stop := fun t' q hc' => by
        obtain ⟨q', hc', _⟩ := back hc'
        exact h.stop t' q' hc'
      toStop := fun t' q hc' hq => by
        obtain ⟨q', hc', hq'⟩ := back hc'
        exact h.toStop t' q' hc' (hq' hq)
      oneStop := fun t₁ t₂ q₁ q₂ h₁ h₂ => by
        obtain ⟨q₁', h₁, _⟩ := back h₁
        obtain ⟨q₂', h₂, _⟩ := back h₂
        exact h.oneStop t₁ t₂ q₁' q₂' h₁ h₂
      wake := fun hwait => by
        rcases h.wake hwait with hq | ⟨t', c', hc'⟩
        · exact Or.inl hq
        · refine Or.inr ⟨t', c', ?_⟩
          rw [show State.call _ t' = _ from call_setCall s t t' _, if_neg]
          · exact hc'
          · rintro rfl
            rw [hc] at hc'
            cases hc'
            exact hw rfl hwait
      exiting := fun he => (nomatch (h.not_exiting_of_call hc).symm.trans he)
      fresh := fun t' job ha => h.fresh t' job (append ha)
      apart := fun t₁ t₂ job h₁ h₂ => h.apart t₁ t₂ job (append h₁) (append h₂) }

/-- A call that holds the lock moves on to signal or to unlock. -/
theorem inv_move [DecidableEq C] {p' : Phase} (h : Inv n s) (hc : s.call t = some (c, p)) (hp : p ≠ .lock)
    (hp' : p' = .signal ∨ p' = .unlock) (hw : p = .signal → s.run ≠ .waiting) :
    Inv n (s.setCall t (some (c, p'))) := by
  have hne : p' ≠ .lock ∧ p' ≠ .write := by rcases hp' with rfl | rfl <;> decide
  refine inv_phase h hc (fun t' => ?_) (fun hq => absurd hq (not_or.mpr hne)) hw
  rw [h.lock t']
  refine or_congr ⟨fun ⟨c', q, hc', hq⟩ => ?_, fun ⟨c', q, hc', hq⟩ => ?_⟩ Iff.rfl
  · by_cases ht : t' = t
    · exact ⟨c, p', by rw [call_setCall, if_pos ht], hne.1⟩
    · exact ⟨c', q, by rw [call_setCall, if_neg ht]; exact hc', hq⟩
  · rcases call_move hc' with ⟨rfl, _, _⟩ | ⟨_, hc'⟩
    · exact ⟨c, p, hc, hp⟩
    · exact ⟨c', q, hc', hq⟩

/-- A call takes the lock. -/
theorem inv_take [DecidableEq C] (h : Inv n s) (hc : s.call t = some (c, .lock)) (hl : s.lock = none) :
    Inv n { s.setCall t (some (c, .write)) with lock := some t } := by
  refine inv_phase h hc (fun t' => ⟨?_, ?_⟩) (fun _ => Or.inl rfl) fun h => (nomatch h)
  · rintro ⟨⟩
    exact Or.inl ⟨c, .write, by rw [call_setCall, if_pos rfl], by decide⟩
  · rintro (⟨c', q, hc', hq⟩ | hw)
    · rcases call_move hc' with ⟨rfl, _, _⟩ | ⟨_, hc'⟩
      · rfl
      · have := (h.lock t').mpr (Or.inl ⟨c', q, hc', hq⟩)
        rw [hl] at this
        cases this
    · have := (h.lock t').mpr (Or.inr hw)
      rw [hl] at this
      cases this

/-- A call gives the lock back and ends. -/
theorem inv_release [DecidableEq C] (h : Inv n s) (hc : s.call t = some (c, .unlock)) :
    Inv n { s.setCall t none with lock := none } := by
  have other : ∀ {t' c' q}, (s.setCall t none).call t' = some (c', q) → t' ≠ t ∧ s.call t' = some (c', q) := by
    intro t' c' q hc'
    rw [call_setCall] at hc'
    split at hc'
    · cases hc'
    · next ht => exact ⟨ht, hc'⟩
  have append : ∀ {t' job}, State.ToAppend { s.setCall t none with lock := none } t' job → s.ToAppend t' job :=
    fun ⟨q, hc', hq⟩ => ⟨q, (other hc').2, hq⟩
  exact
    { h with
      lock := fun t' => by
        refine ⟨fun h => (nomatch h), ?_⟩
        rintro (⟨c', q, hc', hq⟩ | ⟨_, hlocked⟩)
        · obtain ⟨hne, hc'⟩ := other hc'
          have := (h.holder hc (by decide)).symm.trans (h.holder hc' hq)
          exact absurd (Option.some.inj this).symm hne
        · exact (nomatch (h.not_locked hc (by decide)).symm.trans hlocked)
      inCode := fun hw => by
        obtain ⟨⟨c', q⟩, hc'⟩ := Option.ne_none_iff_exists'.mp hw
        exact h.inCode (by rw [(other hc').2]; exact fun h => (nomatch h))
      referenced := fun t' c' q hc' => h.referenced t' c' q (other hc').2
      stop := fun t' q hc' => h.stop t' q (other hc').2
      toStop := fun t' q hc' => h.toStop t' q (other hc').2
      oneStop := fun t₁ t₂ q₁ q₂ h₁ h₂ => h.oneStop t₁ t₂ q₁ q₂ (other h₁).2 (other h₂).2
      wake := fun hwait => by
        rcases h.wake hwait with hq | ⟨t', c', hc'⟩
        · exact Or.inl hq
        · refine Or.inr ⟨t', c', ?_⟩
          rw [show State.call _ t' = _ from call_setCall s t t' _, if_neg]
          · exact hc'
          · rintro rfl
            rw [hc] at hc'
            cases hc'
      exiting := fun he => (nomatch (h.not_exiting_of_call hc).symm.trans he)
      fresh := fun t' job ha => h.fresh t' job (append ha)
      apart := fun t₁ t₂ job h₁ h₂ => h.apart t₁ t₂ job (append h₁) (append h₂) }

/-- A job is appended by a call that is about to signal. -/
theorem inv_append {job : Job} (h : Inv n s) (hc : s.call t = some (.enqueue job, .signal)) (hr : s.Referenced t)
    (hjob : job < s.nextJob ∧ job ∉ s.enqueued) (hapart : ∀ t', ¬s.ToAppend t' job) :
    Inv n { s with jobs := s.jobs ++ [job], refs := s.refs + 1, enqueued := s.enqueued ++ [job] } :=
  have hpos := h.refs_pos hr
  { h with
    refs := by have := h.refs; simp only [List.length_append, List.length_singleton]; omega
    dead := fun hs => by rw [h.not_stopped hpos] at hs; cases hs
    stop := fun t' p hc => absurd hc (h.no_stop hpos t' p)
    wake := fun _ => Or.inr ⟨t, _, hc⟩
    batch := fun b hb => by
      have hl := h.not_locked hc (by decide)
      rw [show s.run = .emptying b from hb] at hl
      cases hl
    order := by rw [show s.enqueued = _ from h.order]; simp
    fresh := fun t' job' ha => by
      refine ⟨(h.fresh t' job' ha).1, fun hmem => ?_⟩
      rcases List.mem_append.mp hmem with hmem | hmem
      · exact (h.fresh t' job' ha).2 hmem
      · rw [List.mem_singleton.mp hmem] at ha
        exact hapart t' ha
    used := fun job' hmem => by
      rcases List.mem_append.mp hmem with hmem | hmem
      · exact h.used job' hmem
      · rw [List.mem_singleton.mp hmem]; exact hjob.1
    nodup := List.nodup_append.mpr ⟨h.nodup, by simp, fun a ha b hb => by
      rintro rfl
      rw [List.mem_singleton.mp hb] at ha
      exact hjob.2 ha⟩ }

/-- `stopped` is set by a call that is about to signal. -/
theorem inv_stop (h : Inv n s) (hc : s.call t = some (.stop, .signal)) : Inv n { s with stopped := true } :=
  { h with
    dead := fun _ => h.stop t _ hc
    toStop := fun t' p hc' hp => by
      rw [h.oneStop t' t p _ hc' hc, hc] at hc'
      cases hc'
      rcases hp with hp | hp <;> cases hp
    wake := fun _ => Or.inr ⟨t, _, hc⟩
    exiting := fun he => (nomatch (h.not_exiting_of_call hc).symm.trans he) }

/-- A signal wakes the worker, or changes nothing. -/
theorem inv_signalled (h : Inv n s) : Inv n { s with run := s.run.signalled } := by
  by_cases hw : s.run = .waiting
  · have hc : s.call .worker = none := by
      by_contra hne
      have := h.inCode hne
      rw [hw] at this
      cases this
    rw [show s.run.signalled = .woken by rw [hw]; rfl]
    exact inv_pass h hc hw ⟨rfl, rfl, rfl, rfl⟩ rfl rfl (h.keep (by rw [hw]; rfl))
  · have : s.run.signalled = s.run := by cases hrun : s.run <;> first | rfl | exact absurd hrun hw
    rw [this]
    exact h

/-- The test of `isCurrentThread` is right. -/
theorem inv_answer [DecidableEq C] (h : Inv n s) (hc : s.call t = some (c, p)) (u : Thread C) (b : Bool)
    (hb : Function.update s.answer t (some (s.thread == some t)) u = some b) : b = true ↔ u = .worker := by
  rw [Function.update_apply] at hb
  split at hb
  · next hu =>
    subst hu
    obtain rfl := Option.some.inj hb
    rw [beq_iff_eq, h.thread]
    refine ⟨fun hthread => ?_, ?_⟩
    · split at hthread
      · cases hthread
      · exact (Option.some.inj hthread).symm
    · rintro rfl
      have hcode := h.inCode (by simp [hc])
      cases hrun : s.run <;> rw [hrun] at hcode <;> first | rfl | cases hcode
  · exact h.answered u b hb

/-- **One statement of a call keeps the invariant.** -/
theorem inv_callStep [DecidableEq C] (h : Inv 0 s) (hc : s.call t = some (c, p)) (hs : s.callStep t c p = some s') : Inv 0 s' := by
  cases p with
  | lock =>
    simp only [State.callStep, Option.ite_none_right_eq_some, Option.some.injEq] at hs
    obtain ⟨hl, rfl⟩ := hs
    exact inv_take h hc hl
  | write =>
    cases c with
    | enqueue job =>
      obtain rfl := Option.some.inj hs
      have hmove := inv_move h hc (by decide) (Or.inl rfl) fun h => (nomatch h)
      have hself : (s.setCall t (some (.enqueue job, .signal))).call t = some (.enqueue job, .signal) := by
        rw [call_setCall, if_pos rfl]
      have happend : s.ToAppend t job := ⟨.write, hc, Or.inr rfl⟩
      refine inv_append hmove hself (h.referenced t _ _ hc fun h => (nomatch h)) (h.fresh t job happend) ?_
      rintro t' ⟨q, hc', hq⟩
      rcases call_move hc' with ⟨_, _, rfl⟩ | ⟨hne, hc'⟩
      · rcases hq with hq | hq <;> cases hq
      · exact hne (h.apart t' t job ⟨q, hc', hq⟩ happend)
    | stop =>
      obtain rfl := Option.some.inj hs
      exact inv_stop (inv_move h hc (by decide) (Or.inl rfl) fun h => (nomatch h))
        (by rw [call_setCall, if_pos rfl])
    | isCurrentThread =>
      obtain rfl := Option.some.inj hs
      exact { inv_move h hc (by decide) (Or.inr rfl) fun h => (nomatch h) with answered := inv_answer h hc }
  | signal =>
    obtain rfl := Option.some.inj hs
    refine inv_move (inv_signalled h) hc (by decide) (Or.inr rfl) fun _ hw => ?_
    cases hrun : s.run <;> rw [show (State.run _) = s.run.signalled from rfl, hrun] at hw <;> cases hw
  | unlock =>
    obtain rfl := Option.some.inj hs
    exact inv_release h hc

/-! ## The worker -/

/-- The worker moves on and takes its jobs along. -/
theorem inv_goto {r₀ r : Run} {l : Option (Thread C)} {e : List (Handler × Thread C)} (h : Inv n s)
    (hc : s.call .worker = none) (hrun : s.run = r₀) (hsame : r₀.Same r) (hl : s.LockedAt r l)
    (hwake : r = .waiting → s.jobs = [] ∧ s.stopped = false) (hbatch : ∀ b, r ≠ .emptying b) (halive : r ≠ .trapped)
    (hexit : r.exiting = true → s.stopped = true ∧ ∀ t, s.call t = none)
    (htaken : State.Taken { s with run := r, lock := l, exits := e })
    (hlog : State.ExitLog { s with run := r, lock := l, exits := e }) :
    Inv n { s with run := r, lock := l, exits := e } := by
  subst hrun
  exact
    { h with
      refs := by simp only [hsame.held]; exact h.refs
      lock := hl
      inCode := fun hne => absurd hc hne
      referenced := fun t c p hct hne => h.referenced_of_idle hc hct hne
      wake := fun hw => Or.inl (hwake hw)
      batch := fun b hb => absurd hb (hbatch b)
      room := by simp only [hsame.held, hsame.toRun, hsame.current]; exact h.room
      order := by simp only [hsame.toRun]; exact h.order
      finished := by simp only [hsame.current]; exact h.finished
      thread := by simp only [hsame.unregistered]; exact h.thread
      alive := halive
      exiting := hexit
      taken := htaken
      exits := hlog }

/-- Nobody else is inside a call once the worker has seen, under the lock, that it is to stop. -/
theorem Inv.silent (h : Inv n s) (hs : s.stopped = true) (hl : s.run.locked = true) (t : Thread C) : s.call t = none := by
  cases hc : s.call t with
  | none => rfl
  | some cp =>
    obtain ⟨c, p⟩ := cp
    have hstop : c = .stop := by
      by_contra hne
      have := h.refs_pos (h.referenced t c p hc hne)
      have := h.dead hs
      omega
    subst hstop
    have hp : p = .lock ∨ p = .write := by
      have hfree : p = .lock := by
        by_contra hne
        rw [h.not_locked hc hne] at hl
        cases hl
      exact Or.inl hfree
    rw [h.toStop t p hc hp] at hs
    cases hs

/-- The worker says which thread it is. -/
theorem inv_register (h : Inv n s) (hc : s.call .worker = none) (hrun : s.run = .registering) :
    Inv n { s with thread := some .worker, run := .registered } := by
  obtain ⟨hrefs, hlock, horder, hfin⟩ := And.intro h.refs (And.intro h.lock (And.intro h.order h.finished))
  rw [hrun] at hrefs hlock horder hfin
  exact inv_plain h hc (by rw [hrun]; rfl) rfl hrefs hlock (Nat.le_refl _) horder hfin h.onWorker rfl

/-- The batch is a copy of the queue, and holds the executor as often. -/
theorem inv_copy (h : Inv n s) (hc : s.call .worker = none) (hrun : s.run = .copying) :
    Inv n { s with refs := s.refs + s.jobs.length, run := .emptying s.jobs } := by
  have hno := h.no_exits (by rw [hrun]; rfl)
  obtain ⟨hrefs, hlock, horder, hfin⟩ := And.intro h.refs (And.intro h.lock (And.intro h.order h.finished))
  have hthread := h.thread
  rw [hrun] at hrefs hlock horder hfin hthread
  -- a queue that holds the executor is not empty only while the executor is alive
  have hdead : s.refs = 0 → s.refs + s.jobs.length = 0 := by omega
  exact
    { h with
      refs := by simp only [Run.held] at hrefs ⊢; omega
      lock := hlock
      inCode := fun hne => absurd hc hne
      referenced := fun t c p hct hne => h.referenced_of_idle hc hct hne
      dead := fun hs => hdead (h.dead hs)
      stop := fun t p hct => hdead (h.stop t p hct)
      wake := fun h => (nomatch h)
      batch := fun _ hb => by cases hb; rfl
      room := Nat.zero_le _
      order := horder
      finished := hfin
      thread := hthread
      alive := fun h => (nomatch h)
      exiting := fun h => (nomatch h)
      taken := trivial
      exits := hno }

/-- The queue is emptied; the batch takes its place. -/
theorem inv_empty [DecidableEq C] {b : List Job} (h : Inv 0 s) (hc : s.call .worker = none) (hrun : s.run = .emptying b) :
    Inv 0 ({ s with jobs := [], run := .deciding b }.drop .worker s.jobs.length) := by
  obtain rfl := h.batch b hrun
  obtain ⟨hrefs, hlock, horder, hfin⟩ := And.intro h.refs (And.intro h.lock (And.intro h.order h.finished))
  have hthread := h.thread
  rw [hrun] at hrefs hlock horder hfin hthread
  simp only [Run.held, Run.toRun, List.append_nil] at hrefs horder
  have hmove : Inv s.jobs.length { s with jobs := [], run := .deciding s.jobs } := by
    refine inv_plain h hc (by rw [hrun]; rfl) rfl ?_ hlock (Nat.le_refl _) ?_ hfin h.onWorker hthread
    · simp only [Run.held, List.length_nil]
      omega
    · simpa [Run.toRun] using horder
  -- the batch still holds the executor
  refine inv_drop hmove hc fun hpos hall => ?_
  have : s.refs = s.jobs.length := hall
  omega

/-- The worker starts the next job of the batch. -/
theorem inv_run {b rest : List Job} {job : Job} (h : Inv n s) (hc : s.call .worker = none)
    (hrun : s.run = .next b (job :: rest)) :
    Inv n { s with started := s.started ++ [(job, .worker)], run := .running b job rest } := by
  obtain ⟨hrefs, hlock, horder, hfin⟩ := And.intro h.refs (And.intro h.lock (And.intro h.order h.finished))
  obtain ⟨hroom, hthread⟩ := And.intro h.room h.thread
  rw [hrun] at hrefs hlock horder hfin hroom hthread
  refine inv_plain h hc (by rw [hrun]; rfl) rfl hrefs hlock ?_ ?_ ?_ (fun e he => ?_) hthread
  · simpa [Run.toRun, Run.current, Run.held] using hroom
  · simpa [Run.toRun] using horder
  · simpa [Run.current] using hfin
  · rcases List.mem_append.mp he with he | he
    · exact h.onWorker e he
    · rw [List.mem_singleton.mp he]

/-- One element of the batch is released. -/
theorem inv_dropping [DecidableEq C] {b : List Job} {job : Job} (h : Inv 0 s) (hc : s.call .worker = none)
    (hrun : s.run = .dropping (job :: b)) : Inv 0 ({ s with run := .dropping b }.drop .worker 1) := by
  obtain ⟨hrefs, hlock, horder, hfin⟩ := And.intro h.refs (And.intro h.lock (And.intro h.order h.finished))
  have hthread := h.thread
  rw [hrun] at hrefs hlock horder hfin hthread
  refine inv_drop ?_ hc fun _ _ _ => rfl
  refine inv_plain h hc (by rw [hrun]; rfl) rfl ?_ hlock (Nat.zero_le _) horder hfin h.onWorker hthread
  simp only [Run.held, List.length_cons] at hrefs ⊢
  omega

/-- **One statement of `run` keeps the invariant.** -/
theorem inv_runStep [DecidableEq C] (h : Inv 0 s) (hc : s.call .worker = none) (hs : s.runStep = some s') : Inv 0 s' := by
  rw [State.runStep] at hs
  have hno := h.no_exits
  have htaken := h.taken
  have hexits := h.exits
  cases hrun : s.run <;> rw [hrun] at hs hno
  case entering =>
    simp only [Option.ite_none_right_eq_some, Option.some.injEq] at hs
    obtain ⟨hl, rfl⟩ := hs
    exact inv_pass h hc hrun ⟨rfl, rfl, rfl, rfl⟩ rfl rfl (h.take hl rfl)
  case registering =>
    have hthread : s.thread = none := by rw [h.thread, hrun]; rfl
    simp only [hthread, if_pos, Option.some.injEq] at hs
    obtain rfl := hs
    exact inv_register h hc hrun
  case registered =>
    obtain rfl := Option.some.inj hs
    exact inv_pass h hc hrun ⟨rfl, rfl, rfl, rfl⟩ rfl rfl (h.give (by rw [hrun]; rfl) rfl)
  case locking =>
    simp only [Option.ite_none_right_eq_some, Option.some.injEq] at hs
    obtain ⟨hl, rfl⟩ := hs
    exact inv_pass h hc hrun ⟨rfl, rfl, rfl, rfl⟩ rfl rfl (h.take hl rfl)
  case checking =>
    by_cases hidle : s.jobs = [] ∧ s.stopped = false
    · simp only [if_pos hidle, Option.some.injEq] at hs
      obtain rfl := hs
      exact inv_goto h hc hrun ⟨rfl, rfl, rfl, rfl⟩ (h.give (by rw [hrun]; rfl) rfl) (fun _ => hidle)
        (by simp) (by simp) (by simp [Run.exiting]) trivial (hno rfl)
    · simp only [if_neg hidle, Option.some.injEq] at hs
      obtain rfl := hs
      exact inv_pass h hc hrun ⟨rfl, rfl, rfl, rfl⟩ rfl rfl (h.keep (by rw [hrun]; rfl))
  case waiting => cases hs
  case woken =>
    simp only [Option.ite_none_right_eq_some, Option.some.injEq] at hs
    obtain ⟨hl, rfl⟩ := hs
    exact inv_pass h hc hrun ⟨rfl, rfl, rfl, rfl⟩ rfl rfl (h.take hl rfl)
  case copying =>
    obtain rfl := Option.some.inj hs
    exact inv_copy h hc hrun
  case emptying b =>
    obtain rfl := Option.some.inj hs
    exact inv_empty h hc hrun
  case deciding b =>
    obtain rfl := Option.some.inj hs
    refine inv_goto h hc hrun ⟨rfl, rfl, rfl, rfl⟩ (h.keep (by rw [hrun]; rfl)) (by simp)
      (by simp) (by simp) (fun he => ?_) ?_ (hno rfl)
    · have hstopped : s.stopped = true := (Bool.and_eq_true_iff.mp he).2
      exact ⟨hstopped, h.silent hstopped (by rw [hrun]; rfl)⟩
    · unfold State.Taken
      cases hexit : b.isEmpty && s.stopped with
      | false => trivial
      | true => exact ⟨List.isEmpty_iff.mp (Bool.and_eq_true_iff.mp hexit).1, rfl⟩
  case unlocking b e o =>
    obtain rfl := Option.some.inj hs
    rw [State.Taken, hrun] at htaken
    refine inv_goto h hc hrun ⟨rfl, rfl, rfl, rfl⟩ (h.give (by rw [hrun]; rfl) rfl)
      (by simp) (by simp) (by simp) (fun he => h.exiting (by rw [hrun]; exact he))
      ?_ ?_
    · cases e
      · trivial
      · exact htaken
    · rw [State.ExitLog, hrun] at hexits
      exact hexits
  case branching b e o =>
    rw [State.Taken, hrun] at htaken
    rw [State.ExitLog, hrun] at hexits
    cases e with
    | false =>
      obtain rfl := Option.some.inj hs
      exact inv_pass h hc hrun ⟨rfl, rfl, rfl, rfl⟩ rfl rfl (h.keep (by rw [hrun]; rfl))
    | true =>
      obtain ⟨rfl, ho⟩ := htaken
      have hexit := h.exiting (by rw [hrun]; rfl)
      cases o with
      | some f =>
        obtain rfl := Option.some.inj hs
        refine inv_goto h hc hrun ⟨rfl, rfl, rfl, rfl⟩ (h.keep (by rw [hrun]; rfl))
          (by simp) (by simp) (by simp) (fun _ => hexit) trivial ?_
        exact ⟨ho.symm, by simp only [show s.exits = [] from hexits, List.nil_append]⟩
      | none =>
        obtain rfl := Option.some.inj hs
        refine inv_goto h hc hrun ⟨rfl, rfl, rfl, rfl⟩ (h.keep (by rw [hrun]; rfl))
          (by simp) (by simp) (by simp) (fun _ => hexit) trivial ?_
        show s.exits = (s.onExit.map fun h => (h, (Thread.worker : Thread C))).toList
        rw [← ho]
        exact hexits
  case handling f =>
    obtain rfl := Option.some.inj hs
    rw [State.ExitLog, hrun] at hexits
    refine inv_goto h hc hrun ⟨rfl, rfl, rfl, rfl⟩ (h.keep (by rw [hrun]; rfl)) (by simp)
      (by simp) (by simp) (fun _ => h.exiting (by rw [hrun]; rfl)) trivial ?_
    show s.exits = (s.onExit.map fun h => (h, (Thread.worker : Thread C))).toList
    rw [hexits.1]
    exact hexits.2
  case next b rest =>
    cases rest with
    | nil =>
      obtain rfl := Option.some.inj hs
      exact inv_pass h hc hrun ⟨rfl, rfl, rfl, rfl⟩ rfl rfl (h.keep (by rw [hrun]; rfl))
    | cons job rest =>
      obtain rfl := Option.some.inj hs
      exact inv_run h hc hrun
  case running => cases hs
  case dropping b =>
    cases b with
    | nil =>
      obtain rfl := Option.some.inj hs
      exact inv_pass h hc hrun ⟨rfl, rfl, rfl, rfl⟩ rfl rfl (h.keep (by rw [hrun]; rfl))
    | cons job b =>
      obtain rfl := Option.some.inj hs
      exact inv_dropping h hc hrun
  case returned => cases hs
  case trapped => cases hs

/-! ## Every action -/

/-- The running job ends. -/
theorem inv_endJob {b rest : List Job} {job : Job} (h : Inv n s) (hc : s.call .worker = none)
    (hrun : s.run = .running b job rest) :
    Inv n { s with finished := s.finished ++ [job], run := .next b rest } := by
  obtain ⟨hrefs, hlock, horder, hfin⟩ := And.intro h.refs (And.intro h.lock (And.intro h.order h.finished))
  obtain ⟨hroom, hthread⟩ := And.intro h.room h.thread
  rw [hrun] at hrefs hlock horder hfin hroom hthread
  refine inv_plain h hc (by rw [hrun]; rfl) rfl hrefs hlock (Nat.le_of_succ_le hroom) horder ?_ h.onWorker hthread
  simpa [Run.current] using hfin

/-- A reference is given up. -/
theorem inv_release_handle [DecidableEq C] (h : Inv 0 s) (hfree : s.Free t) (ht : .thread t ∈ s.handles) :
    Inv 0 ({ s with handles := s.handles.erase (.thread t) }.drop t 1) := by
  refine inv_drop ?_ hfree.1 fun _ _ ht => Run.inCode_of_inBody (hfree.2 ht)
  exact
    { h with
      refs := by
        have hrefs := h.refs
        have := List.length_pos_of_mem ht
        simp only [List.length_erase_of_mem ht]
        omega
      referenced := fun t' c p hc hne => by
        refine (h.referenced t' c p hc hne).imp (fun hm => (List.mem_erase_of_ne ?_).mpr hm) id
        rintro ⟨rfl⟩
        rw [hfree.1] at hc
        cases hc }

/-- A call of a thread that can use the executor begins. -/
theorem inv_call [DecidableEq C] (h : Inv 0 s) (hfree : s.Free t) (hr : s.Referenced t) (hc : c ≠ .stop)
    (hfresh : ∀ job, c = .enqueue job → (job < s.nextJob ∧ job ∉ s.enqueued) ∧ ∀ t', ¬s.ToAppend t' job) :
    Inv 0 (s.setCall t (some (c, .lock))) :=
  inv_begin h hfree.1 (fun ht => Run.inCode_of_inBody (hfree.2 ht)) (fun _ => hr) (fun hs => absurd hs hc)
    (h.not_exiting (h.refs_pos hr)) hfresh

/-- **Every action keeps the invariant.** -/
theorem inv_step [DecidableEq C] {a : Action C} (h : Inv 0 s) (hs : s.step a = some s') : Inv 0 s' := by
  cases a with
  | retain src dst =>
    simp only [State.step, Option.ite_none_right_eq_some, Option.some.injEq] at hs
    obtain ⟨hshares, rfl⟩ := hs
    exact inv_retain h (h.refs_pos_of_shares hshares) dst
  | take t =>
    simp only [State.step, Option.ite_none_right_eq_some, Option.some.injEq] at hs
    obtain ⟨⟨_, ht⟩, rfl⟩ := hs
    exact inv_take_handle h ht
  | release t =>
    simp only [State.step, Option.ite_none_right_eq_some, Option.some.injEq] at hs
    obtain ⟨⟨hfree, ht⟩, rfl⟩ := hs
    exact inv_release_handle h hfree ht
  | onThreadExit t f =>
    simp only [State.step, Option.ite_none_right_eq_some, Option.some.injEq] at hs
    obtain ⟨⟨_, hr⟩, rfl⟩ := hs
    have hexit := h.not_exiting (h.refs_pos hr)
    have hno := h.no_exits hexit
    exact
      { h with
        taken := taken_of_not_exiting (s := { s with onExit := some f, passed := s.passed ++ [f] }) hexit
        exits := exitLog_of_not_exiting (s := { s with onExit := some f, passed := s.passed ++ [f] }) hexit hno
        onExit := by simp }
  | enqueue t =>
    simp only [State.step, Option.ite_none_right_eq_some, Option.some.injEq] at hs
    obtain ⟨⟨hfree, hr⟩, rfl⟩ := hs
    have hnew : ∀ t' job, s.ToAppend t' job → job < s.nextJob := fun t' job ha => (h.fresh t' job ha).1
    have hnext : Inv 0 { s with nextJob := s.nextJob + 1 } :=
      { h with
        fresh := fun t' job ha => ⟨Nat.lt_succ_of_lt (hnew t' job ha), (h.fresh t' job ha).2⟩
        used := fun job hm => Nat.lt_succ_of_lt (h.used job hm) }
    refine inv_call hnext hfree hr (fun h => (nomatch h)) fun job hjob => ?_
    obtain rfl := Call.enqueue.inj hjob
    exact ⟨⟨Nat.lt_succ_self _, fun hm => Nat.lt_irrefl _ (h.used _ hm)⟩, fun t' ha => Nat.lt_irrefl _ (hnew t' _ ha)⟩
  | isCurrentThread t =>
    simp only [State.step, Option.ite_none_right_eq_some, Option.some.injEq] at hs
    obtain ⟨⟨hfree, hr⟩, rfl⟩ := hs
    have hc : Inv 0 (s.setCall t (some (.isCurrentThread, .lock))) :=
      inv_call h hfree hr (fun h => (nomatch h)) fun _ h => (nomatch h)
    exact
      { hc with
        answered := fun u b hb => by
          have hb' : Function.update s.answer t none u = some b := hb
          rw [Function.update_apply] at hb'
          split at hb'
          · cases hb'
          · exact h.answered u b hb' }
  | endJob =>
    rw [State.step] at hs
    split at hs
    · next b job rest hrun =>
      simp only [Option.ite_none_right_eq_some, Option.some.injEq] at hs
      obtain ⟨hc, rfl⟩ := hs
      exact inv_endJob h hc hrun
    · cases hs
  | wake =>
    rw [State.step] at hs
    split at hs
    · next hrun =>
      obtain rfl := Option.some.inj hs
      have := inv_signalled h
      rw [hrun] at this
      exact this
    · cases hs
  | advance t =>
    rw [State.step] at hs
    split at hs
    · next c p hc => exact inv_callStep h hc hs
    · next hc =>
      simp only [Option.ite_none_right_eq_some] at hs
      obtain ⟨rfl, hs⟩ := hs
      exact inv_runStep h hc hs

end Steps

/-- **The invariant holds in every reachable state.** -/
theorem reachable_inv [DecidableEq C] {s : State C} (h : (executor C).Reachable s) : Inv 0 s := by
  refine Lib.Machine.invariant ?_ (fun s a s' h (hs : s.step a = some s') => inv_step h hs) h
  rintro _ ⟨creator, rfl⟩
  exact inv_initial creator

end SwiftJanet.Executor
