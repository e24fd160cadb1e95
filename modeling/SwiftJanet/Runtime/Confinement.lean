import SwiftJanet.Runtime.JanetRuntime

/-!
# Confinement of the VMs

`RuntimeInv` says what holds of one actor in a reachable state: which of its jobs are over, when its executor and its VM
are released, and what has been called on its thread; `WorldInv` puts the actors and the main runtime together.

`confined`: no precondition fails, every call into the library is made on the thread of the runtime that it is made for,
and every thread initialises and deinitialises in turn.
-/

namespace SwiftJanet.Runtime

open Lib Executor

/-! ## The calls of one thread -/

section Calls

variable {V : Type} {v : V} {calls : List (V × JanetCall)}

/-- Neither the first nor the last call for a VM. -/
def JanetCall.IsUse (c : JanetCall) : Prop := c ≠ .janetInit ∧ c ≠ .janetDeinit

/-- The calls for a VM that has been initialised once. -/
def Begun (v : V) (calls : List (V × JanetCall)) : Prop :=
  ∃ uses : List JanetCall, (∀ c ∈ uses, c.IsUse) ∧ calls = (.janetInit :: uses).map fun c => (v, c)

/-- The calls for a VM that has been initialised and deinitialised once. -/
def Ended (v : V) (calls : List (V × JanetCall)) : Prop :=
  ∃ begun, Begun v begun ∧ calls = begun ++ [(v, .janetDeinit)]

/-- How often a call has been made. -/
def countCalls (c : JanetCall) (calls : List (V × JanetCall)) : Nat := calls.countP fun e => e.2 = c

theorem Begun.use {uses : List JanetCall} (h : Begun v calls) (huses : ∀ c ∈ uses, c.IsUse) :
    Begun v (calls ++ uses.map fun c => (v, c)) := by
  obtain ⟨before, hbefore, rfl⟩ := h
  refine ⟨before ++ uses, fun c hc => ?_, by simp⟩
  exact (List.mem_append.mp hc).elim (hbefore c) (huses c)

theorem foldlM_uses [DecidableEq V] {uses : List JanetCall} (h : ∀ c ∈ uses, c.IsUse) :
    (uses.map fun c => (v, c)).foldlM scanCall (some v) = some (some v) := by
  induction uses with
  | nil => rfl
  | cons c uses ih =>
    obtain ⟨hinit, hdeinit⟩ := h c List.mem_cons_self
    have hcall : scanCall (some v) (v, c) = some (some v) := by
      cases c <;> first | exact if_pos rfl | exact absurd rfl hinit | exact absurd rfl hdeinit
    rw [List.map_cons, List.foldlM_cons, hcall]
    exact ih fun c hc => h c (List.mem_cons_of_mem _ hc)

theorem Begun.scan [DecidableEq V] (h : Begun v calls) : scan calls = some (some v) := by
  obtain ⟨uses, huses, rfl⟩ := h
  exact foldlM_uses huses

theorem Ended.scan [DecidableEq V] (h : Ended v calls) : scan calls = some none := by
  obtain ⟨begun, hbegun, rfl⟩ := h
  rw [scan_append, hbegun.scan]
  simp [scanCall]

theorem countCalls_uses {c : JanetCall} {uses : List JanetCall} (h : ∀ c ∈ uses, c.IsUse) (hc : ¬c.IsUse) :
    countCalls c (uses.map fun c => (v, c)) = 0 := by
  rw [countCalls, List.countP_eq_zero]
  rintro e he heq
  obtain ⟨c', hc', rfl⟩ := List.mem_map.mp he
  exact hc (of_decide_eq_true heq ▸ h c' hc')

theorem not_isUse_init : ¬JanetCall.IsUse .janetInit := fun h => h.1 rfl

theorem not_isUse_deinit : ¬JanetCall.IsUse .janetDeinit := fun h => h.2 rfl

theorem Begun.counts (h : Begun v calls) :
    countCalls .janetInit calls = 1 ∧ countCalls .janetDeinit calls = 0 := by
  obtain ⟨uses, huses, rfl⟩ := h
  have hinit := countCalls_uses (v := v) huses not_isUse_init
  have hdeinit := countCalls_uses (v := v) huses not_isUse_deinit
  simp only [countCalls, List.map_cons, List.countP_cons] at hinit hdeinit ⊢
  rw [hinit, hdeinit]
  simp

theorem Ended.counts (h : Ended v calls) :
    countCalls .janetInit calls = 1 ∧ countCalls .janetDeinit calls = 1 := by
  obtain ⟨begun, hbegun, rfl⟩ := h
  obtain ⟨hinit, hdeinit⟩ := hbegun.counts
  simp only [countCalls, List.countP_append] at hinit hdeinit ⊢
  rw [hinit, hdeinit]
  simp

end Calls

/-! ## One actor -/

section Actor

variable {P : Type}

/-- The job of `deinit` has released everything. -/
def JanetRuntime.Over (rt : JanetRuntime P) : Prop :=
  ∃ d, rt.deinitJob = some d ∧
    (d ∈ rt.executor.finished ∨ (rt.executor.run.current = some d ∧ rt.body = .ended))

/-- The VM of the actor, with what was called on its thread and the marker there. -/
def JanetRuntime.VMInv (pthread : OSThread → P) (r : Nat) (rt : JanetRuntime P) (calls : List (Owner × JanetCall))
    (live : Bool) : Prop :=
  match rt.vm with
  | some vm => vm.thread = pthread (.worker r) ∧ live = true ∧ Begun (.runtime r) calls
  | none => live = false ∧ (calls = [] ∨ (rt.Over ∧ Ended (.runtime r) calls))

structure RuntimeInv (pthread : OSThread → P) (r : Nat) (rt : JanetRuntime P) (calls : List (Owner × JanetCall))
    (live : Bool) : Prop where
  reachable : (executor OSThread).Reachable rt.executor
  alive : rt.deinitJob = none → .object ∈ rt.executor.handles
  dying : rt.deinitJob ≠ none → rt.refs = 0 ∧ rt.pending = []
  jobs : ∀ job, job < rt.executor.nextJob → rt.deinitJob ≠ some job →
    job ∈ rt.pending.map Prod.fst ∨ job ∈ rt.executor.finished ∨
      (rt.executor.run.current = some job ∧ rt.body = .ended)
  methods : ∀ e ∈ rt.pending, e.2.isCall = true
  inJob : rt.body ≠ .start → rt.executor.run.current ≠ none
  performed : rt.body = .performed → rt.executor.run.current ≠ rt.deinitJob
  deiniting : rt.body = .checking ∨ rt.body = .releasing →
    rt.deinitJob ≠ none ∧ rt.executor.run.current = rt.deinitJob
  asked : rt.body = .checking → rt.executor.Asked
  released : .object ∉ rt.executor.handles → rt.Over ∨ rt.body = .releasing
  noVM : rt.Over → rt.vm = none
  vm : rt.VMInv pthread r calls live
  used : calls ≠ [] → ∃ job, job < rt.executor.nextJob ∧ rt.deinitJob ≠ some job

variable {pthread : OSThread → P} {r : Nat} {rt : JanetRuntime P} {calls : List (Owner × JanetCall)} {live : Bool}
  {e : State OSThread} {job : Job}

/-- The running job was enqueued, and has not finished. -/
theorem current_spec (h : (executor OSThread).Reachable e) (hc : e.run.current = some job) :
    job < e.nextJob ∧ job ∉ e.finished := by
  have hinv := reachable_inv h
  have hstarted : e.started.map Prod.fst = e.finished ++ [job] := by rw [hinv.finished, hc]; rfl
  have horder := hinv.order
  rw [hstarted] at horder
  have hnodup := hinv.nodup
  refine ⟨hinv.used job ?_, fun hmem => ?_⟩
  · rw [horder]
    simp
  · rw [horder, List.append_assoc, List.append_assoc] at hnodup
    exact (List.nodup_append.mp hnodup).2.2 job hmem job (by simp) rfl

/-- While a call is pending the actor is alive. -/
theorem RuntimeInv.alive_of_pending (h : RuntimeInv pthread r rt calls live) {e : Job × Method} (he : e ∈ rt.pending) :
    rt.deinitJob = none := by
  by_contra hdying
  rw [(h.dying hdying).2] at he
  cases he

/-- While a call runs the actor is alive. -/
theorem RuntimeInv.alive_of_call (h : RuntimeInv pthread r rt calls live) (hc : rt.executor.run.current = some job)
    (hne : rt.deinitJob ≠ some job) (hbody : rt.body ≠ .ended) : rt.deinitJob = none := by
  obtain ⟨hlt, hfin⟩ := current_spec h.reachable hc
  rcases h.jobs job hlt hne with hmem | hmem | ⟨_, hended⟩
  · obtain ⟨e, he, _⟩ := List.mem_map.mp hmem
    exact h.alive_of_pending he
  · exact absurd hmem hfin
  · exact absurd hended hbody

theorem not_over_of_alive (h : rt.deinitJob = none) : ¬rt.Over := fun ⟨d, hd, _⟩ => by
  rw [h] at hd
  cases hd

/-- Outside a job that has ended, only the jobs that are finished say whether `deinit` is over. -/
theorem over_congr {rt' : JanetRuntime P} (hb : rt.body ≠ .ended) (hb' : rt'.body ≠ .ended)
    (hd : rt'.deinitJob = rt.deinitJob) (hf : rt'.executor.finished = rt.executor.finished) : rt'.Over ↔ rt.Over := by
  unfold JanetRuntime.Over
  rw [hd, hf]
  refine exists_congr fun d => and_congr Iff.rfl (or_congr Iff.rfl ⟨fun h => ?_, fun h => ?_⟩)
  · exact absurd h.2 hb'
  · exact absurd h.2 hb

/-- An actor that has not begun to go away has a VM, or has called nothing. -/
theorem RuntimeInv.calls_eq_nil (h : RuntimeInv pthread r rt calls live) (halive : rt.deinitJob = none)
    (hvm : rt.vm = none) : live = false ∧ calls = [] := by
  have hinv := h.vm
  rw [JanetRuntime.VMInv, hvm] at hinv
  exact ⟨hinv.1, hinv.2.resolve_right fun hover => not_over_of_alive halive hover.1⟩

/-- What is known of the VM stays known while the job of `deinit` does not become undone. -/
theorem JanetRuntime.VMInv.imp {rt' : JanetRuntime P} (h : rt.VMInv pthread r calls live) (hvm : rt'.vm = rt.vm)
    (hover : rt.Over → rt'.Over) : rt'.VMInv pthread r calls live := by
  unfold JanetRuntime.VMInv at h ⊢
  rw [hvm]
  cases hv : rt.vm with
  | some vm => rw [hv] at h; exact h
  | none => rw [hv] at h; exact ⟨h.1, h.2.imp id fun ho => ⟨hover ho.1, ho.2⟩⟩

/-! ### References -/

/-- Another reference, or one that is not the last is dropped. -/
theorem inv_refs (h : RuntimeInv pthread r rt calls live) (halive : rt.deinitJob = none) (n : Nat) :
    RuntimeInv pthread r { rt with refs := n } calls live :=
  { h with dying := fun hne => absurd halive hne }

/-- A call begins, and the next job is its job. -/
theorem inv_call (h : RuntimeInv pthread r rt calls live) (halive : rt.deinitJob = none) {t : Executor.Thread OSThread}
    {e : State OSThread} (he : (executor OSThread).run rt.executor (enqueueShared t) = some e) (n : Nat)
    {m : Method} (hm : m.isCall = true) :
    RuntimeInv pthread r
      { rt with executor := e, refs := n, pending := (rt.executor.nextJob, m) :: rt.pending } calls live := by
  obtain ⟨hfinished, hnext, hobject, hrun, hasked⟩ := enqueueShared_spec he
  have hover : ¬JanetRuntime.Over { rt with
      executor := e, refs := n, pending := (rt.executor.nextJob, m) :: rt.pending } := not_over_of_alive halive
  exact
    { reachable := Lib.Machine.reachable_run h.reachable he
      alive := fun _ => hobject.mpr (h.alive halive)
      dying := fun hne => absurd halive hne
      jobs := fun job hlt hne => by
        rw [hnext] at hlt
        rw [hfinished, hrun]
        by_cases hjob : job = rt.executor.nextJob
        · exact Or.inl (hjob ▸ List.mem_cons_self)
        · exact (h.jobs job (Nat.lt_of_le_of_ne (Nat.le_of_lt_succ hlt) hjob) hne).imp (List.mem_cons_of_mem _) id
      methods := fun e he => (List.mem_cons.mp he).elim (fun heq => heq ▸ hm) (h.methods e)
      inJob := by rw [hrun]; exact h.inJob
      performed := by rw [hrun]; exact h.performed
      deiniting := by rw [hrun]; exact h.deiniting
      asked := fun hb => hasked (h.asked hb)
      released := fun hn => absurd (hobject.mpr (h.alive halive)) hn
      noVM := fun ho => absurd ho hover
      vm := h.vm.imp rfl fun ho => absurd ho (not_over_of_alive halive)
      used := fun hne => by
        obtain ⟨job, hlt, hjob⟩ := h.used hne
        exact ⟨job, hnext ▸ Nat.lt_succ_of_lt hlt, hjob⟩ }

/-- The last reference is dropped, and the next job is the job of `deinit`. -/
theorem inv_drop_last (h : RuntimeInv pthread r rt calls live) (halive : rt.deinitJob = none) (hpending : rt.pending = [])
    {t : Executor.Thread OSThread} {e : State OSThread}
    (he : (executor OSThread).run rt.executor (enqueueShared t) = some e) :
    RuntimeInv pthread r { rt with executor := e, refs := 0, deinitJob := some rt.executor.nextJob } calls live := by
  obtain ⟨hfinished, hnext, hobject, hrun, hasked⟩ := enqueueShared_spec he
  have hbody : ¬(rt.body = .checking ∨ rt.body = .releasing) := fun hb => (h.deiniting hb).1 halive
  have hcurrent : ∀ job, rt.executor.run.current = some job → job ≠ rt.executor.nextJob := fun _ hc =>
    Nat.ne_of_lt (current_spec h.reachable hc).1
  have hnew : rt.executor.nextJob ∉ rt.executor.finished := fun hmem => by
    have hinv := reachable_inv h.reachable
    exact Nat.lt_irrefl _ (hinv.used _ (by rw [hinv.order, hinv.finished]; simp [hmem]))
  have hover : ¬JanetRuntime.Over { rt with
      executor := e, refs := 0, deinitJob := some rt.executor.nextJob } := by
    rintro ⟨d, hd, hd'⟩
    obtain rfl := Option.some.inj hd
    rcases hd' with hd' | ⟨hd', _⟩
    · exact hnew (hfinished ▸ hd')
    · exact hcurrent _ (hrun ▸ hd') rfl
  exact
    { reachable := Lib.Machine.reachable_run h.reachable he
      alive := fun hn => (nomatch hn)
      dying := fun _ => ⟨rfl, hpending⟩
      jobs := fun job hlt hne => by
        rw [hnext] at hlt
        rw [hfinished, hrun]
        have hjob : job ≠ rt.executor.nextJob := fun heq => hne (heq ▸ rfl)
        exact h.jobs job (Nat.lt_of_le_of_ne (Nat.le_of_lt_succ hlt) hjob) (by simp [halive])
      methods := h.methods
      inJob := by rw [hrun]; exact h.inJob
      performed := fun hb heq => hcurrent _ (hrun ▸ heq) rfl
      deiniting := fun hb => absurd hb hbody
      asked := fun hb => absurd (Or.inl hb) hbody
      released := fun hn => absurd (hobject.mpr (h.alive halive)) hn
      noVM := fun ho => absurd ho hover
      vm := h.vm.imp rfl fun ho => absurd ho (not_over_of_alive halive)
      used := fun hne => by
        obtain ⟨job, hlt, _⟩ := h.used hne
        exact ⟨job, hnext ▸ Nat.lt_succ_of_lt hlt, fun heq => Nat.ne_of_lt hlt (Option.some.inj heq).symm⟩ }

/-- The reference of a call is given back. -/
theorem inv_giveBack (h : RuntimeInv pthread r rt calls live) (hc : rt.executor.run.current = some job)
    (hb : rt.body = .performed) (n : Nat) :
    RuntimeInv pthread r
      { rt with body := .ended, refs := n, pending := rt.pending.filter fun e => e.1 ≠ job } calls live := by
  have hne : rt.deinitJob ≠ some job := fun heq => h.performed hb (hc.trans heq.symm)
  have halive := h.alive_of_call hc hne (by simp [hb])
  have hover : ¬JanetRuntime.Over { rt with
      body := .ended, refs := n, pending := rt.pending.filter fun e => e.1 ≠ job } := not_over_of_alive halive
  exact
    { h with
      dying := fun hne => absurd halive hne
      jobs := fun job' hlt hne' => by
        by_cases hjob : job' = job
        · exact Or.inr (Or.inr ⟨hjob ▸ hc, rfl⟩)
        · rcases h.jobs job' hlt hne' with hmem | hmem | ⟨_, hended⟩
          · obtain ⟨e, he, rfl⟩ := List.mem_map.mp hmem
            exact Or.inl (List.mem_map_of_mem (List.mem_filter.mpr ⟨he, decide_eq_true hjob⟩))
          · exact Or.inr (Or.inl hmem)
          · rw [hb] at hended
            cases hended
      methods := fun e he => h.methods e (List.mem_filter.mp he).1
      inJob := fun _ hnone => by rw [hc] at hnone; cases hnone
      performed := by simp
      deiniting := by simp
      asked := by simp
      released := fun hn => absurd (h.alive halive) hn
      noVM := fun ho => absurd ho hover
      vm := h.vm.imp rfl fun ho => absurd ho (not_over_of_alive halive) }

/-! ### Jobs -/

/-- A step of the executor that neither begins nor ends a job. -/
theorem inv_stays {e : State OSThread} (h : RuntimeInv pthread r rt calls live) (he : (executor OSThread).Reachable e)
    (hstays : Stays rt.executor e) : RuntimeInv pthread r { rt with executor := e } calls live := by
  have hcurrent : rt.body ≠ .start → e.run.current = rt.executor.run.current := fun hb => by
    cases hc : rt.executor.run.current with
    | none => exact absurd hc (h.inJob hb)
    | some job => exact hstays.current job hc
  have hover : ∀ {d}, e.run.current = some d → rt.body = .ended → rt.executor.run.current = some d := fun hd hb => by
    rw [← hcurrent (by simp [hb])]
    exact hd
  exact
    { reachable := he
      alive := fun hn => hstays.object.mpr (h.alive hn)
      dying := h.dying
      jobs := fun job hlt hne => by
        rw [hstays.nextJob] at hlt
        rw [hstays.finished]
        exact (h.jobs job hlt hne).imp id (Or.imp id fun ⟨hc, hb⟩ => ⟨hstays.current job hc, hb⟩)
      methods := h.methods
      inJob := fun hb hn => h.inJob hb ((hcurrent hb).symm.trans hn)
      performed := fun hb heq => by
        have hstart : rt.body ≠ .start := fun h => (nomatch h.symm.trans hb)
        rw [hcurrent hstart] at heq
        exact h.performed hb heq
      deiniting := fun hb => by
        have hstart : rt.body ≠ .start := fun h => by rcases hb with hb | hb <;> rw [h] at hb <;> cases hb
        rw [hcurrent hstart]
        exact h.deiniting hb
      asked := fun hb => hstays.asked (h.asked hb)
      released := fun hn => by
        refine (h.released fun hmem => hn (hstays.object.mpr hmem)).imp ?_ id
        rintro ⟨d, hd, hd'⟩
        exact ⟨d, hd, hd'.imp (fun hd' => hstays.finished ▸ hd') fun ⟨hc, hb⟩ => ⟨hstays.current d hc, hb⟩⟩
      noVM := fun ⟨d, hd, hd'⟩ =>
        h.noVM ⟨d, hd, hd'.imp (fun hd' => hstays.finished ▸ hd') fun ⟨hc, hb⟩ => ⟨hover hc hb, hb⟩⟩
      vm := h.vm.imp rfl fun ⟨d, hd, hd'⟩ =>
        ⟨d, hd, hd'.imp (fun hd' => hstays.finished ▸ hd') fun ⟨hc, hb⟩ => ⟨hstays.current d hc, hb⟩⟩
      used := fun hne => by rw [hstays.nextJob]; exact h.used hne }

/-- `deinit` begins `checkIsolated`. -/
theorem inv_checkIsolated {e : State OSThread} (h : RuntimeInv pthread r rt calls live) (hb : rt.body = .start)
    (hd : rt.deinitJob ≠ none) (hc : rt.executor.run.current = rt.deinitJob)
    (he : rt.executor.step (.isCurrentThread .worker) = some e) :
    RuntimeInv pthread r { rt with executor := e, body := .checking } calls live := by
  obtain ⟨hstays, hasked⟩ := isCurrentThread_worker he
  have hcurrent : e.run.current = rt.deinitJob := by
    obtain ⟨d, hd'⟩ := Option.ne_none_iff_exists'.mp hd
    rw [hd'] at hc ⊢
    exact hstays.current d hc
  have hstay := inv_stays h (reachable_step h.reachable he) hstays
  have hover : JanetRuntime.Over { rt with executor := e, body := .checking } ↔
      JanetRuntime.Over { rt with executor := e } :=
    over_congr (fun h => (nomatch hb.symm.trans h)) (fun h => (nomatch h)) rfl rfl
  exact
    { hstay with
      jobs := fun job hlt hne => (hstay.jobs job hlt hne).imp id
        (Or.imp id fun ⟨_, hended⟩ => (nomatch hb.symm.trans hended))
      inJob := fun _ hn => hd (hcurrent.symm.trans hn)
      performed := by simp
      deiniting := fun _ => ⟨hd, hcurrent⟩
      asked := fun _ => hasked
      released := fun hn => Or.inl (hover.mpr ((hstay.released hn).resolve_right fun h => (nomatch hb.symm.trans h)))
      noVM := fun ho => hstay.noVM (hover.mp ho)
      vm := hstay.vm.imp rfl hover.mpr }

/-- `deinit` has been told that it is on its thread. -/
theorem RuntimeInv.isolated (h : RuntimeInv pthread r rt calls live) (hb : rt.body = .checking)
    (hc : rt.executor.call .worker = none) : rt.executor.answer .worker = some true := by
  have hanswer := (h.asked hb).resolve_left fun ⟨p, hp, _⟩ => by
    rw [hc] at hp
    cases hp
  obtain ⟨b, hb⟩ := Option.ne_none_iff_exists'.mp hanswer
  rw [hb, ((reachable_inv h.reachable).answered .worker b hb).mpr rfl]

/-- `deinit` releases the executor. -/
theorem inv_releaseExecutor {e : State OSThread} (h : RuntimeInv pthread r rt calls live) (hb : rt.body = .checking)
    (he : (executor OSThread).run rt.executor (releaseObject .worker) = some e) :
    RuntimeInv pthread r { rt with executor := e, body := .releasing } calls live := by
  obtain ⟨hfinished, hnext, hcurrent⟩ := releaseObject_spec he
  obtain ⟨hd, hc⟩ := h.deiniting (Or.inl hb)
  obtain ⟨d, hd'⟩ := Option.ne_none_iff_exists'.mp hd
  have hcurrent' : e.run.current = rt.deinitJob := by
    rw [hd'] at hc ⊢
    exact hcurrent d hc
  have hover : JanetRuntime.Over { rt with executor := e, body := .releasing } ↔ rt.Over :=
    over_congr (fun h => (nomatch hb.symm.trans h)) (fun h => (nomatch h)) rfl hfinished
  exact
    { reachable := Lib.Machine.reachable_run h.reachable he
      alive := fun hn => absurd hn hd
      dying := h.dying
      jobs := fun job hlt hne => by
        rw [hnext] at hlt
        rw [hfinished]
        exact (h.jobs job hlt hne).imp id (Or.imp id fun ⟨_, hended⟩ => (nomatch hb.symm.trans hended))
      methods := h.methods
      inJob := fun _ hn => hd (hcurrent'.symm.trans hn)
      performed := by simp
      deiniting := fun _ => ⟨hd, hcurrent'⟩
      asked := by simp
      released := fun _ => Or.inr rfl
      noVM := fun ho => h.noVM (hover.mp ho)
      vm := h.vm.imp rfl hover.mpr
      used := fun hne => by rw [hnext]; exact h.used hne }

/-- The job ends. -/
theorem inv_endJob {e : State OSThread} (h : RuntimeInv pthread r rt calls live) (hb : rt.body = .ended)
    (he : rt.executor.step .endJob = some e) :
    RuntimeInv pthread r { rt with executor := e, body := .start } calls live := by
  obtain ⟨job, hc, hfinished, hcurrent, hnext, hhandles⟩ := endJob_spec he
  have hover : JanetRuntime.Over { rt with executor := e, body := .start } ↔ rt.Over := by
    refine exists_congr fun d => and_congr Iff.rfl ?_
    rw [hfinished, hc, List.mem_append, List.mem_singleton]
    constructor
    · rintro ((hd | rfl) | ⟨_, hstart⟩)
      · exact Or.inl hd
      · exact Or.inr ⟨rfl, hb⟩
      · cases hstart
    · rintro (hd | ⟨hd, _⟩)
      · exact Or.inl (Or.inl hd)
      · exact Or.inl (Or.inr (Option.some.inj hd).symm)
  exact
    { reachable := reachable_step h.reachable he
      alive := fun hn => hhandles ▸ h.alive hn
      dying := h.dying
      jobs := fun job' hlt hne => by
        rw [hnext] at hlt
        rw [hfinished, List.mem_append, List.mem_singleton]
        rcases h.jobs job' hlt hne with hmem | hmem | ⟨hc', _⟩
        · exact Or.inl hmem
        · exact Or.inr (Or.inl (Or.inl hmem))
        · exact Or.inr (Or.inl (Or.inr (Option.some.inj (hc'.symm.trans hc))))
      methods := h.methods
      inJob := fun hne => absurd rfl hne
      performed := by simp
      deiniting := by simp
      asked := by simp
      released := fun hn => by
        rw [hhandles] at hn
        exact Or.inl (hover.mpr ((h.released hn).resolve_right fun h => (nomatch hb.symm.trans h)))
      noVM := fun ho => h.noVM (hover.mp ho)
      vm := h.vm.imp rfl hover.mpr
      used := fun hne => by rw [hnext]; exact h.used hne }

/-! ### The VM -/

/-- The job of a call has run its method with the VM. -/
theorem inv_perform {calls' : List (Owner × JanetCall)} {vm : JanetVM P} (h : RuntimeInv pthread r rt calls live)
    (hc : rt.executor.run.current = some job) (halive : rt.deinitJob = none) (hb : rt.body = .start)
    (hvm : vm.thread = pthread (.worker r)) (hcalls : Begun (.runtime r) calls') :
    RuntimeInv pthread r { rt with vm := some vm, body := .performed } calls' true := by
  have hne : rt.deinitJob ≠ some job := by rw [halive]; exact fun h => (nomatch h)
  exact
    { h with
      jobs := fun job' hlt hne' =>
        (h.jobs job' hlt hne').imp id (Or.imp id fun ⟨_, hended⟩ => (nomatch hb.symm.trans hended))
      inJob := fun _ hn => (nomatch hc.symm.trans hn)
      performed := fun _ heq => hne (heq.symm.trans hc)
      deiniting := by simp
      asked := by simp
      released := fun hn => absurd (h.alive halive) hn
      noVM := fun ho => absurd ho (not_over_of_alive halive)
      vm := ⟨hvm, rfl, hcalls⟩
      used := fun _ => ⟨job, (current_spec h.reachable hc).1, hne⟩ }

/-- `deinit` has released the VM, or there was none. -/
theorem inv_releaseVM {calls' : List (Owner × JanetCall)} (h : RuntimeInv pthread r rt calls live)
    (hb : rt.body = .releasing) (hcalls : calls' = [] ∨ Ended (.runtime r) calls')
    (hused : calls' ≠ [] → ∃ job, job < rt.executor.nextJob ∧ rt.deinitJob ≠ some job) :
    RuntimeInv pthread r { rt with vm := none, body := .ended } calls' false := by
  obtain ⟨hd, hc⟩ := h.deiniting (Or.inr hb)
  obtain ⟨d, hd'⟩ := Option.ne_none_iff_exists'.mp hd
  have hover : ({ rt with vm := none, body := .ended } : JanetRuntime P).Over :=
    ⟨d, hd', Or.inr ⟨hc.trans hd', rfl⟩⟩
  exact
    { h with
      jobs := fun job hlt hne =>
        (h.jobs job hlt hne).imp id (Or.imp id fun ⟨_, hended⟩ => (nomatch hb.symm.trans hended))
      inJob := fun _ hn => hd (hc.symm.trans hn)
      performed := by simp
      deiniting := by simp
      asked := by simp
      released := fun _ => Or.inl hover
      noVM := fun _ => rfl
      vm := ⟨rfl, hcalls.imp id fun he => ⟨hover, he⟩⟩
      used := hused }

/-- A new actor. -/
theorem inv_create {t : OSThread} {e : State OSThread}
    (he : (executor OSThread).run (State.initial t) (storeObject (.client t)) = some e) :
    RuntimeInv pthread r ⟨e, 1, [], none, none, .start⟩ [] false := by
  obtain ⟨_, hnext, hobject⟩ := storeObject_spec he
  exact
    { reachable := Lib.Machine.reachable_run (.start ⟨t, rfl⟩) he
      alive := fun _ => hobject
      dying := fun hne => absurd rfl hne
      jobs := fun job hlt => by rw [hnext] at hlt; exact absurd hlt (Nat.not_lt_zero job)
      methods := fun _ he => (nomatch he)
      inJob := fun hne => absurd rfl hne
      performed := by simp
      deiniting := by simp
      asked := by simp
      released := fun hn => absurd hobject hn
      noVM := fun _ => rfl
      vm := ⟨rfl, Or.inl rfl⟩
      used := fun hne => absurd rfl hne }

/-- When `run` has returned, `deinit` is over. -/
theorem RuntimeInv.over_of_returned (h : RuntimeInv pthread r rt calls live) (hr : rt.executor.run = .returned) :
    rt.Over := by
  have hinv := reachable_inv h.reachable
  have hrefs := hinv.dead (hinv.exiting (by rw [hr]; rfl)).1
  have hnone : rt.executor.handles = [] := List.length_eq_zero_iff.mp (by have := hinv.refs; omega)
  refine (h.released (by simp [hnone])).resolve_right fun hb => ?_
  -- inside a job the loop has not returned
  have := h.inJob (by simp [hb])
  rw [hr] at this
  exact this rfl

/-- The thread of an actor initialises at most one VM, and has deinitialised it when `run` returns. -/
theorem RuntimeInv.counts (h : RuntimeInv pthread r rt calls live) :
    countCalls .janetInit calls ≤ 1 ∧
      (rt.executor.run = .returned → countCalls .janetDeinit calls = countCalls .janetInit calls) := by
  have hvm := h.vm
  unfold JanetRuntime.VMInv at hvm
  cases hv : rt.vm with
  | some vm =>
    rw [hv] at hvm
    refine ⟨Nat.le_of_eq hvm.2.2.counts.1, fun hr => ?_⟩
    rw [h.noVM (h.over_of_returned hr)] at hv
    cases hv
  | none =>
    rw [hv] at hvm
    rcases hvm.2 with rfl | ⟨_, hended⟩
    · exact ⟨Nat.zero_le _, fun _ => rfl⟩
    · exact ⟨Nat.le_of_eq hended.counts.1, fun _ => hended.counts.2.trans hended.counts.1.symm⟩

/-- The calls on the thread of an actor make sense. -/
theorem RuntimeInv.scan_ne_none (h : RuntimeInv pthread r rt calls live) : scan calls ≠ none := by
  have hvm := h.vm
  unfold JanetRuntime.VMInv at hvm
  cases hv : rt.vm with
  | some vm => rw [hv] at hvm; rw [hvm.2.2.scan]; exact fun h => (nomatch h)
  | none =>
    rw [hv] at hvm
    rcases hvm.2 with rfl | ⟨_, hended⟩
    · exact fun h => (nomatch h)
    · rw [hended.scan]; exact fun h => (nomatch h)

end Actor

/-! ## The process -/

section Process

variable {T V : Type} [DecidableEq T] {t : T} {v : V} {p p' : Process T V}

/-- The second process differs from the first in calls for `v` on `t`, and in the marker of `t`. -/
structure Process.Grows (t : T) (v : V) (p p' : Process T V) : Prop where
  others : ∀ u, u ≠ t → p'.callsOn u = p.callsOn u
  markers : ∀ u, u ≠ t → p'.threadHasLiveVM u = p.threadHasLiveVM u
  log : ∀ e ∈ p'.log, e ∈ p.log ∨ (e.1 = t ∧ e.2.1 = v)

theorem grows_refl : Process.Grows t v p p := ⟨fun _ _ => rfl, fun _ _ => rfl, fun _ he => Or.inl he⟩

theorem grows_record {live : T → Bool} {cs : List JanetCall} (h : ∀ u, u ≠ t → live u = p.threadHasLiveVM u) :
    Process.Grows t v p { p.record t v cs with threadHasLiveVM := live } := by
  refine ⟨fun u hu => Process.callsOn_record_of_ne hu, h, fun e he => ?_⟩
  rcases List.mem_append.mp he with he | he
  · exact Or.inl he
  · obtain ⟨c, _, rfl⟩ := List.mem_map.mp he
    exact Or.inr ⟨rfl, rfl⟩

end Process

/-- The main runtime, with what was called on the main thread and the marker there. -/
def World.MainInv {P : Type} (pthread : OSThread → P) (w : World P) : Prop :=
  match w.main with
  | some rt =>
    rt.vm.thread = pthread .main ∧ scan (w.process.callsOn .main) = some (some .main) ∧
      (w.frames = 0 → rt.isEvaluating = false)
  | none => w.process.callsOn .main = [] ∧ w.process.threadHasLiveVM .main = false

structure WorldInv {P : Type} (pthread : OSThread → P) (w : World P) : Prop where
  live : w.trapped = none
  runtimes : ∀ r rt, w.runtimes r = some rt →
    RuntimeInv pthread r rt (w.process.callsOn (.worker r)) (w.process.threadHasLiveVM (.worker r))
  unmade : ∀ r, w.runtimes r = none →
    w.process.callsOn (.worker r) = [] ∧ w.process.threadHasLiveVM (.worker r) = false
  main : w.MainInv pthread
  log : ∀ e ∈ w.process.log, e.1 = e.2.1.thread

section Worlds

variable {P : Type} {pthread : OSThread → P} {w w' : World P} {r : Nat} {rt rt' : JanetRuntime P}
  {p : Process OSThread Owner}

theorem inv_worldInitial : WorldInv pthread (World.initial : World P) where
  live := rfl
  runtimes _ _ h := by cases h
  unmade _ _ := ⟨rfl, rfl⟩
  main := ⟨rfl, rfl⟩
  log _ h := by cases h

/-- One actor has made a step. -/
theorem inv_setRuntime (h : WorldInv pthread w) (hgrows : w.process.Grows (.worker r) (.runtime r) p)
    (hrt : RuntimeInv pthread r rt' (p.callsOn (.worker r)) (p.threadHasLiveVM (.worker r))) :
    WorldInv pthread (World.setRuntime { w with process := p } r rt') := by
  have hother : ∀ r', r' ≠ r → p.callsOn (.worker r') = w.process.callsOn (.worker r') ∧
      p.threadHasLiveVM (.worker r') = w.process.threadHasLiveVM (.worker r') := fun r' hne =>
    have hne' : OSThread.worker r' ≠ .worker r := fun heq => hne (OSThread.worker.inj heq)
    ⟨hgrows.others _ hne', hgrows.markers _ hne'⟩
  refine ⟨h.live, fun r' rt hrt' => ?_, fun r' hr' => ?_, ?_, fun e he => ?_⟩
  · have hrt'' : Function.update w.runtimes r (some rt') r' = some rt := hrt'
    by_cases hr : r' = r
    · subst hr
      rw [Function.update_self] at hrt''
      obtain rfl := Option.some.inj hrt''
      exact hrt
    · rw [Function.update_of_ne hr] at hrt''
      show RuntimeInv pthread r' rt (p.callsOn _) (p.threadHasLiveVM _)
      rw [(hother r' hr).1, (hother r' hr).2]
      exact h.runtimes r' rt hrt''
  · have hr'' : Function.update w.runtimes r (some rt') r' = none := hr'
    have hr : r' ≠ r := fun heq => by rw [heq, Function.update_self] at hr''; cases hr''
    rw [Function.update_of_ne hr] at hr''
    show p.callsOn _ = [] ∧ p.threadHasLiveVM _ = false
    rw [(hother r' hr).1, (hother r' hr).2]
    exact h.unmade r' hr''
  · have hmain := h.main
    have hne : OSThread.main ≠ .worker r := fun heq => (nomatch heq)
    unfold World.MainInv at hmain ⊢
    show match w.main with
      | some rt => rt.vm.thread = pthread .main ∧ scan (p.callsOn .main) = some (some .main) ∧ _
      | none => p.callsOn .main = [] ∧ p.threadHasLiveVM .main = false
    rw [hgrows.others _ hne, hgrows.markers _ hne]
    exact hmain
  · rcases hgrows.log e he with he | ⟨ht, hv⟩
    · exact h.log e he
    · rw [ht, hv]
      rfl

/-- The main thread has made a step. -/
theorem inv_main {m : Option (MainJanetRuntime P)} {frames : Nat} (h : WorldInv pthread w)
    (hgrows : w.process.Grows .main .main p)
    (hmain : World.MainInv pthread { w with main := m, process := p, frames := frames }) :
    WorldInv pthread { w with main := m, process := p, frames := frames } := by
  have hother : ∀ r, p.callsOn (.worker r) = w.process.callsOn (.worker r) ∧
      p.threadHasLiveVM (.worker r) = w.process.threadHasLiveVM (.worker r) := fun r =>
    have hne : OSThread.worker r ≠ .main := fun heq => (nomatch heq)
    ⟨hgrows.others _ hne, hgrows.markers _ hne⟩
  refine ⟨h.live, fun r rt hrt => ?_, fun r hr => ?_, hmain, fun e he => ?_⟩
  · show RuntimeInv pthread r rt (p.callsOn _) (p.threadHasLiveVM _)
    rw [(hother r).1, (hother r).2]
    exact h.runtimes r rt hrt
  · show p.callsOn _ = [] ∧ p.threadHasLiveVM _ = false
    rw [(hother r).1, (hother r).2]
    exact h.unmade r hr
  · rcases hgrows.log e he with he | ⟨ht, hv⟩
    · exact h.log e he
    · rw [ht, hv]
      rfl

/-! ### The steps of an actor -/

theorem isUse_calls {m : Method} (hm : m.isCall = true) : ∀ c ∈ m.calls, c.IsUse := by
  cases m with
  | eval copies throws =>
    intro c hc
    rcases List.mem_cons.mp hc with rfl | hc
    · exact ⟨by decide, by decide⟩
    · rw [List.eq_of_mem_replicate hc]
      exact ⟨by decide, by decide⟩
  | define makes throws =>
    intro c hc
    rcases List.mem_append.mp hc with hc | hc
    · rw [List.eq_of_mem_replicate hc]
      exact ⟨by decide, by decide⟩
    · cases throws
      · rw [List.mem_singleton.mp hc]
        exact ⟨by decide, by decide⟩
      · cases hc
  | reset | deinit => cases hm

variable [DecidableEq P] {m : Method}

/-- A call runs its method with the VM that there is. -/
theorem perform_some {vm : JanetVM P} (hvm : vm.thread = pthread (.worker r)) (hm : m.isCall = true)
    (p : Process OSThread Owner) :
    JanetRuntime.perform pthread r (some vm) m p = (.returns vm, p.record (.worker r) (.runtime r) m.calls) := by
  obtain ⟨res, hres, hrun⟩ := Method.run_own (t := .worker r) (v := .runtime r) (p := p) (m := m) hvm
  have hne : m ≠ .deinit := fun heq => by rw [heq] at hm; cases hm
  have hattempt : (m.run vm (.worker r) (pthread (.worker r)) (.runtime r)).attempt p =
      (.returns (), p.record (.worker r) (.runtime r) m.calls) := by
    rw [Computation.attempt, hrun, if_neg hne]
    rcases hres with rfl | rfl <;> rfl
  have := Computation.bind_of_returns (f := fun _ => (pure vm : Effect OSThread Owner (JanetVM P))) hattempt
  exact this

/-- The first call makes the VM. -/
theorem perform_none (hfree : p.threadHasLiveVM (.worker r) = false) (hm : m.isCall = true) :
    JanetRuntime.perform pthread r none m p = (.returns ⟨pthread (.worker r)⟩,
      { p.record (.worker r) (.runtime r) ([.janetInit, .janetCoreEnv] ++ m.calls) with
        threadHasLiveVM := Function.update p.threadHasLiveVM (.worker r) true }) := by
  have hsome := @perform_some _ pthread r _ _ ⟨pthread (.worker r)⟩ rfl hm
  have hinit := @JanetVM.init_free _ _ _ (OSThread.worker r) (pthread (.worker r)) (Owner.runtime r) p _ hfree
  refine (Computation.bind_of_returns (f := fun vm => (do
    (m.run vm (OSThread.worker r) (pthread (.worker r)) (Owner.runtime r)).attempt
    return vm : Effect OSThread Owner (JanetVM P))) hinit).trans ((hsome _).trans ?_)
  rw [Process.record_record]
  rfl

/-- **The job of a call keeps the invariant.** -/
theorem inv_perform_step {job : Job} (h : WorldInv pthread w) (hrt : w.runtimes r = some rt)
    (hc : rt.executor.run.current = some job) (hpending : (job, m) ∈ rt.pending) (hb : rt.body = .start)
    (hs : w.after (JanetRuntime.perform pthread r rt.vm m w.process) (fun vm w =>
      w.setRuntime r { rt with vm := some vm, body := .performed }) = some w') : WorldInv pthread w' := by
  have hinv := h.runtimes r rt hrt
  have halive := hinv.alive_of_pending hpending
  have hm := hinv.methods _ hpending
  have hvm := hinv.vm
  unfold JanetRuntime.VMInv at hvm
  cases hv : rt.vm with
  | some vm =>
    rw [hv] at hvm hs
    rw [perform_some hvm.1 hm] at hs
    obtain rfl := Option.some.inj hs
    refine inv_setRuntime h (grows_record fun _ _ => rfl) ?_
    have hbegun := hvm.2.2.use (isUse_calls hm)
    rw [← Process.callsOn_record] at hbegun
    have := inv_perform hinv hc halive hb hvm.1 hbegun
    rw [← hvm.2.1] at this
    exact this
  | none =>
    obtain ⟨hlive, hcalls⟩ := hinv.calls_eq_nil halive hv
    rw [hv, perform_none hlive hm] at hs
    obtain rfl := Option.some.inj hs
    refine inv_setRuntime h (grows_record fun u hu => Function.update_of_ne hu ..) ?_
    have hbegun : Begun (.runtime r) (w.process.callsOn (.worker r) ++
        ([JanetCall.janetInit, .janetCoreEnv] ++ m.calls).map fun c => (Owner.runtime r, c)) := by
      refine ⟨.janetCoreEnv :: m.calls, fun c hc => ?_, by rw [hcalls]; rfl⟩
      rcases List.mem_cons.mp hc with rfl | hc
      · exact ⟨by decide, by decide⟩
      · exact isUse_calls hm c hc
    rw [← Process.callsOn_record] at hbegun
    have := @inv_perform _ _ _ _ _ _ _ _ ⟨pthread (.worker r)⟩ hinv hc halive hb rfl hbegun
    rw [show true = Function.update w.process.threadHasLiveVM (OSThread.worker r) true (.worker r) from
      (Function.update_self (OSThread.worker r) true w.process.threadHasLiveVM).symm] at this
    exact this

/-- **The release of the VM keeps the invariant.** -/
theorem inv_releaseVM_step (h : WorldInv pthread w) (hrt : w.runtimes r = some rt) (hb : rt.body = .releasing)
    (hs : (match rt.vm with
      | some vm =>
        w.after (vm.deinit (.worker r) (pthread (.worker r)) (.runtime r) w.process) fun _ w =>
          w.setRuntime r { rt with vm := none, body := .ended }
      | none => some (w.setRuntime r { rt with body := .ended })) = some w') : WorldInv pthread w' := by
  have hinv := h.runtimes r rt hrt
  have hvm := hinv.vm
  unfold JanetRuntime.VMInv at hvm
  cases hv : rt.vm with
  | some vm =>
    rw [hv] at hvm hs
    dsimp only at hs
    rw [JanetVM.deinit_own hvm.1] at hs
    obtain rfl := Option.some.inj hs
    refine inv_setRuntime h (grows_record fun u hu => Function.update_of_ne hu ..) ?_
    have hended : Ended (.runtime r) (w.process.callsOn (.worker r) ++
        [JanetCall.janetDeinit].map fun c => (Owner.runtime r, c)) := ⟨_, hvm.2.2, rfl⟩
    rw [← Process.callsOn_record] at hended
    have hne : w.process.callsOn (.worker r) ≠ [] := fun hnil => by
      obtain ⟨uses, _, heq⟩ := hvm.2.2
      rw [hnil] at heq
      cases heq
    have := inv_releaseVM hinv hb (Or.inr hended) fun _ => hinv.used hne
    rw [show false = Function.update w.process.threadHasLiveVM (OSThread.worker r) false (.worker r) from
      (Function.update_self (OSThread.worker r) false w.process.threadHasLiveVM).symm] at this
    exact this
  | none =>
    rw [hv] at hvm hs
    obtain rfl := Option.some.inj hs
    have := inv_releaseVM hinv hb (hvm.2.imp id And.right) hinv.used
    rw [← hvm.1] at this
    exact inv_setRuntime h grows_refl this

omit [DecidableEq P] in
/-- The actor with a step of its own behind it, in a process that has not changed. -/
theorem inv_actor (h : WorldInv pthread w)
    (hrt : RuntimeInv pthread r rt' (w.process.callsOn (.worker r)) (w.process.threadHasLiveVM (.worker r))) :
    WorldInv pthread (w.setRuntime r rt') := inv_setRuntime h grows_refl hrt

/-- **Every step of an actor keeps the invariant.** -/
theorem inv_stepRuntime {a : RuntimeAction} (h : WorldInv pthread w) (hrt : w.runtimes r = some rt)
    (hs : w.stepRuntime pthread r rt a = some w') : WorldInv pthread w' := by
  have hinv := h.runtimes r rt hrt
  have halive : 0 < rt.refs ∨ rt.pending ≠ [] → rt.deinitJob = none := fun hr => by
    by_contra hd
    obtain ⟨hrefs, hpending⟩ := hinv.dying hd
    exact hr.elim (fun hr => Nat.ne_of_gt hr hrefs) fun hp => hp hpending
  cases a with
  | retain =>
    simp only [World.stepRuntime, Option.ite_none_right_eq_some, Option.some.injEq] at hs
    obtain ⟨hr, rfl⟩ := hs
    exact inv_actor h (inv_refs hinv (halive hr) _)
  | drop t =>
    rw [World.stepRuntime] at hs
    split at hs
    · next hlast =>
      split at hs
      · next e he =>
        obtain rfl := Option.some.inj hs
        exact inv_actor h (inv_drop_last hinv (halive (Or.inl (by omega))) hlast.2 he)
      · cases hs
    · simp only [Option.ite_none_right_eq_some, Option.some.injEq] at hs
      obtain ⟨hr, rfl⟩ := hs
      exact inv_actor h (inv_refs hinv (halive (Or.inl hr)) _)
  | call t m =>
    simp only [World.stepRuntime, Option.ite_none_right_eq_some] at hs
    obtain ⟨⟨hr, hm⟩, hs⟩ := hs
    split at hs
    · next e he =>
      obtain rfl := Option.some.inj hs
      exact inv_actor h (inv_call hinv (halive (Or.inl hr)) he _ hm)
    · cases hs
  | perform =>
    rw [World.stepRuntime] at hs
    split at hs
    · next job hc =>
      split at hs
      · next job' m hfind =>
        simp only [Option.ite_none_right_eq_some] at hs
        have hsame := List.find?_some hfind
        obtain rfl : job' = job := by simpa using hsame
        exact inv_perform_step h hrt hc (List.mem_of_find?_eq_some hfind) hs.1.1 hs.2
      · cases hs
    · cases hs
  | giveBack =>
    rw [World.stepRuntime] at hs
    split at hs
    · next job hc =>
      simp only [Option.ite_none_right_eq_some, Option.some.injEq] at hs
      obtain ⟨hb, rfl⟩ := hs
      exact inv_actor h (inv_giveBack hinv hc hb _)
    · cases hs
  | checkIsolated =>
    simp only [World.stepRuntime, Option.ite_none_right_eq_some] at hs
    obtain ⟨⟨hb, hd, hc⟩, hs⟩ := hs
    split at hs
    · next e he =>
      obtain rfl := Option.some.inj hs
      exact inv_actor h (inv_checkIsolated hinv hb hd hc he)
    · cases hs
  | releaseExecutor =>
    simp only [World.stepRuntime, Option.ite_none_right_eq_some] at hs
    obtain ⟨⟨hb, hc⟩, hs⟩ := hs
    rw [if_pos (hinv.isolated hb hc)] at hs
    split at hs
    · next e he =>
      obtain rfl := Option.some.inj hs
      exact inv_actor h (inv_releaseExecutor hinv hb he)
    · cases hs
  | releaseVM =>
    simp only [World.stepRuntime, Option.ite_none_right_eq_some] at hs
    exact inv_releaseVM_step h hrt hs.1.1 hs.2
  | endJob =>
    simp only [World.stepRuntime, Option.ite_none_right_eq_some] at hs
    obtain ⟨hb, hs⟩ := hs
    split at hs
    · next e he =>
      obtain rfl := Option.some.inj hs
      exact inv_actor h (inv_endJob hinv hb he)
    · cases hs
  | executor a =>
    simp only [World.stepRuntime, Option.ite_none_right_eq_some] at hs
    obtain ⟨ha, hs⟩ := hs
    split at hs
    · next e he =>
      obtain rfl := Option.some.inj hs
      exact inv_actor h (inv_stays hinv (reachable_step hinv.reachable he) (step_stays ha he))
    · cases hs

/-! ### The main runtime -/

omit [DecidableEq P] in
/-- A step of the main runtime that calls the library for its own VM. -/
theorem inv_onMain {x : MainStep OSThread Owner P Unit} {cs : List JanetCall} (h : WorldInv pthread w)
    (hx : ∀ m, w.main = some m → ∃ (res : Outcome Unit Misuse Unit) (m' : MainJanetRuntime P) (frames : Nat)
      (resets : List Nat), (res = .returns () ∨ res = .throws ()) ∧
      x ⟨m, w.process, w.frames, []⟩ = (res, ⟨m', w.process.record .main .main cs, frames, resets⟩) ∧
      m'.vm = m.vm ∧ (frames = 0 → m'.isEvaluating = false))
    (hcs : (cs.map fun c => (Owner.main, c)).foldlM scanCall (some .main) = some (some .main))
    (hs : w.onMain x = some w') : WorldInv pthread w' := by
  have hmain := h.main
  unfold World.MainInv at hmain
  cases hm : w.main with
  | none =>
    rw [World.onMain, hm] at hs
    cases hs
  | some m =>
    obtain ⟨res, m', frames, resets, hres, hrun, hvm, hflag⟩ := hx m hm
    rw [hm] at hmain
    rw [World.onMain, hm] at hs
    dsimp only at hs
    rw [hrun] at hs
    have hinv : WorldInv pthread { w with
        main := some m', process := w.process.record .main .main cs, frames := frames } := by
      refine inv_main h (grows_record fun _ _ => rfl) ⟨hvm ▸ hmain.1, ?_, hflag⟩
      rw [Process.callsOn_record, scan_append, hmain.2.1]
      exact hcs
    rcases hres with rfl | rfl
    all_goals
      obtain rfl := Option.some.inj hs
      exact hinv

omit [DecidableEq P] in
theorem inv_makeMain (h : WorldInv pthread w) (hs : w.makeMain pthread = some w') : WorldInv pthread w' := by
  have hmain := h.main
  unfold World.MainInv at hmain
  cases hm : w.main with
  | some m =>
    rw [World.makeMain, hm] at hs
    cases hs
  | none =>
    rw [hm] at hmain
    have hinit := @JanetVM.init_free _ _ _ OSThread.main (pthread .main) Owner.main w.process _ hmain.2
    have hmade : (MainJanetRuntime.init OSThread.main (pthread .main) Owner.main) w.process =
        (.returns ⟨⟨pthread .main⟩, false⟩, { w.process.record .main .main [.janetInit, .janetCoreEnv] with
          threadHasLiveVM := Function.update w.process.threadHasLiveVM .main true }) :=
      Computation.bind_of_returns hinit
    rw [World.makeMain, hm] at hs
    dsimp only at hs
    rw [hmade] at hs
    obtain rfl := Option.some.inj hs
    have hscan : scan ((w.process.record OSThread.main Owner.main [.janetInit, .janetCoreEnv]).callsOn .main) =
        some (some .main) := by
      rw [Process.callsOn_record, hmain.1]
      rfl
    have hinv : WorldInv pthread { w with
        main := some ⟨⟨pthread .main⟩, false⟩
        process := { w.process.record .main .main [.janetInit, .janetCoreEnv] with
          threadHasLiveVM := Function.update w.process.threadHasLiveVM .main true }
        frames := 0 } :=
      inv_main h (grows_record fun u hu => Function.update_of_ne hu ..) ⟨rfl, hscan, fun _ => rfl⟩
    exact hinv

/-- **Every action keeps the invariant.** -/
theorem inv_worldStep {a : WorldAction} (h : WorldInv pthread w) (hs : w.step pthread a = some w') :
    WorldInv pthread w' := by
  have hmain := h.main
  unfold World.MainInv at hmain
  rw [World.step, if_pos h.live] at hs
  cases a with
  | create r t =>
    simp only [World.stepLive, World.create, Option.ite_none_right_eq_some] at hs
    obtain ⟨⟨hr, _⟩, hs⟩ := hs
    split at hs
    · next e he =>
      obtain rfl := Option.some.inj hs
      obtain ⟨hcalls, hlive⟩ := h.unmade r hr
      exact inv_actor h (by rw [hcalls, hlive]; exact inv_create he)
    · cases hs
  | runtime r a =>
    rw [World.stepLive] at hs
    split at hs
    · next rt hrt => exact inv_stepRuntime h hrt hs
    · cases hs
  | makeMain => exact inv_makeMain h hs
  | beginEval =>
    have hbegin : [(Owner.main, JanetCall.janetDostring)].foldlM scanCall (some .main) = some (some .main) := rfl
    refine @inv_onMain _ _ _ _ _ [.janetDostring] h (fun m hm => ?_) hbegin hs
    rw [hm] at hmain
    exact ⟨_, _, _, _, Or.inl rfl, MainJanetRuntime.beginEval_own hmain.1, rfl, by simp⟩
  | endEval copies throws =>
    simp only [World.stepLive, Option.ite_none_right_eq_some] at hs
    refine inv_onMain h (fun m hm => ?_) (Threads.foldlM_accesses Owner.main copies) hs.2
    refine ⟨if throws then .throws () else .returns (), ⟨m.vm, false⟩, w.frames - 1, [], ?_, ?_, rfl, fun _ => rfl⟩
    · cases throws <;> decide
    · rw [MainJanetRuntime.endEval, MainJanetRuntime.leaving, Computation.after]
      cases throws <;> simp [MainJanetRuntime.onVM, JanetVM.endEval_apply]
  | define makes throws =>
    refine inv_onMain h (fun m hm => ?_)
      (Threads.foldlM_calls (m := .define makes throws) (by simp) Owner.main) hs
    rw [hm] at hmain
    refine ⟨if throws then .throws () else .returns (), m, w.frames, [], ?_, ?_, rfl, hmain.2.2⟩
    · cases throws <;> decide
    · simp only [MainJanetRuntime.define, MainJanetRuntime.onVM, JanetVM.define_own hmain.1]
      rfl
  | reset =>
    simp only [World.stepLive, Option.ite_none_right_eq_some] at hs
    refine inv_onMain h (fun m hm => ?_) (Threads.foldlM_calls (m := .reset) (by decide) Owner.main) hs.2
    rw [hm] at hmain
    exact ⟨_, _, _, _, Or.inl rfl, MainCall.reset_of_false hmain.1 (hmain.2.2 hs.1), rfl, hmain.2.2⟩

/-- **The invariant holds in every reachable state.** -/
theorem reachable_worldInv (h : (world pthread).Reachable w) : WorldInv pthread w := by
  refine Lib.Machine.invariant ?_ (fun w a w' h (hs : w.step pthread a = some w') => inv_worldStep h hs) h
  rintro _ rfl
  exact inv_worldInitial

/-! ## Confinement -/

/-- Two runtimes have different threads. -/
theorem Owner.thread_injective {v v' : Owner} (h : v.thread = v'.thread) : v = v' := by
  cases v <;> cases v' <;> first | rfl | exact congrArg Owner.runtime (OSThread.worker.inj h) | cases h

/-- **Confinement.** Whatever the actors and the main runtime do, in whatever order: no precondition fails; each call into
the library is made on the thread of the runtime that it is made for, and on no thread for two runtimes; each thread
initialises and deinitialises in turn, with the other calls in between; and the thread of an actor initialises at most
once, has deinitialised as often when `run` returns, and does neither when the actor is never called. -/
theorem confined (h : (world pthread).Reachable w) :
    w.trapped = none ∧ (∀ r rt, w.runtimes r = some rt → rt.executor.run ≠ .trapped) ∧
      (∀ e ∈ w.process.log, e.1 = e.2.1.thread) ∧
      (∀ e ∈ w.process.log, ∀ e' ∈ w.process.log, e.1 = e'.1 → e.2.1 = e'.2.1) ∧
      (∀ t, scan (w.process.callsOn t) ≠ none) ∧
      ∀ r rt, w.runtimes r = some rt →
        countCalls .janetInit (w.process.callsOn (.worker r)) ≤ 1 ∧
        (rt.executor.run = .returned → countCalls .janetDeinit (w.process.callsOn (.worker r)) =
          countCalls .janetInit (w.process.callsOn (.worker r))) ∧
        ((∀ job, job < rt.executor.nextJob → rt.deinitJob = some job) → w.process.callsOn (.worker r) = []) := by
  have hinv := reachable_worldInv h
  refine ⟨hinv.live, fun r rt hrt => (reachable_inv (hinv.runtimes r rt hrt).reachable).alive, hinv.log,
    fun e he e' he' heq => ?_, fun t => ?_, fun r rt hrt => ?_⟩
  · rw [hinv.log e he, hinv.log e' he'] at heq
    exact Owner.thread_injective heq
  · cases t with
    | main =>
      have hmain := hinv.main
      unfold World.MainInv at hmain
      cases hm : w.main with
      | some m => rw [hm] at hmain; rw [hmain.2.1]; exact fun h => (nomatch h)
      | none => rw [hm] at hmain; rw [hmain.1]; exact fun h => (nomatch h)
    | worker r =>
      cases hr : w.runtimes r with
      | some rt => exact (hinv.runtimes r rt hr).scan_ne_none
      | none => rw [(hinv.unmade r hr).1]; exact fun h => (nomatch h)
    | other n =>
      have hnone : w.process.callsOn (.other n) = [] := by
        rw [Process.callsOn, List.map_eq_nil_iff, List.filter_eq_nil_iff]
        intro e he heq
        have hthread := of_decide_eq_true heq
        rw [hinv.log e he] at hthread
        cases hv : e.2.1 <;> rw [hv] at hthread <;> cases hthread
      rw [hnone]
      exact fun h => (nomatch h)
  · have hactor := hinv.runtimes r rt hrt
    refine ⟨hactor.counts.1, hactor.counts.2, fun hunused => ?_⟩
    by_contra hcalls
    obtain ⟨job, hlt, hne⟩ := hactor.used hcalls
    exact hne (hunused job hlt)

end Worlds

/-- Statements of a thread of the first actor. -/
private def statements (t : Executor.Thread OSThread) (n : Nat) : List WorldAction :=
  List.replicate n (.runtime 0 (.executor (.advance t)))

/-- A thread begins a call, or drops the last reference, and enqueues the job. -/
private def enqueues (a : RuntimeAction) : List WorldAction :=
  .runtime 0 a :: statements (.client .main) 4 ++ [.runtime 0 (.executor (.release (.client .main)))]

/-- An actor is made, called once and dropped, until its thread returns. -/
def lifetime : List WorldAction :=
  .create 0 .main :: statements .worker 5 ++ enqueues (.call .main (.eval 1 false)) ++ statements .worker 8 ++
    [.runtime 0 .perform, .runtime 0 .giveBack, .runtime 0 .endJob] ++ statements .worker 3 ++
    enqueues (.drop .main) ++ statements .worker 8 ++ [.runtime 0 .checkIsolated] ++ statements .worker 3 ++
    [.runtime 0 .releaseExecutor, .runtime 0 .releaseVM, .runtime 0 .endJob] ++ statements .worker 14

theorem confined_lifetime : ∃ w rt, (world fun _ => ()).run (World.initial : World Unit) lifetime = some w ∧
    w.runtimes 0 = some rt ∧ rt.executor.run = .returned ∧ countCalls .janetInit (w.process.callsOn (.worker 0)) = 1 ∧
    w.trapped = none ∧
    countCalls .janetDeinit (w.process.callsOn (.worker 0)) = countCalls .janetInit (w.process.callsOn (.worker 0)) := by
  have hrun : (((world fun _ => ()).run (World.initial : World Unit) lifetime).bind fun w => (w.runtimes 0).map fun rt =>
      (rt.executor.run, countCalls .janetInit (w.process.callsOn (.worker 0)))) = some (.returned, 1) := by
    decide +kernel
  obtain ⟨w, hw, hrt⟩ := Option.bind_eq_some_iff.mp hrun
  obtain ⟨rt, hrt, hpair⟩ := Option.map_eq_some_iff.mp hrt
  obtain ⟨hreturned, hinit⟩ := Prod.mk.inj hpair
  have h := confined (Lib.Machine.reachable_run (.start rfl) hw)
  exact ⟨w, rt, hw, hrt, hreturned, hinit, h.1, (h.2.2.2.2.2 0 rt hrt).2.1 hreturned⟩

end SwiftJanet.Runtime
