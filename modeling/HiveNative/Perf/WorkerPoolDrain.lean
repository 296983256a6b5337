import HiveNative.Perf.WorkerPool

/-!
# The worker pool drains

While a worker is left, the workers finish what was submitted: whichever of them act and in
whatever order, they act at most `WorkerPool.work` times, and they can all be at rest
only when every task is finished.  Then `wait_idle` returns, and if the pool was stopped
the workers have exited, so the destructor's joins return (`pool_drains`).

The measure weighs a queued task 2, a worker that runs 2, one that waits 1 and one that
exited 0.  Taking a task, finishing it and exiting each use up 1 of it.
-/

namespace HiveNative.Perf

variable {s : WorkerPool} {w : ℕ} {q : Queues}

/-! ## What the workers do -/

/-- The steps of the workers. -/
def PoolStep.OfWorker : PoolStep → Prop
  | .wake _ => True
  | .finish _ => True
  | _ => False

/-- A worker got on. -/
def PoolOutcome.works : PoolOutcome → Bool
  | .took _ => true
  | .exited => true
  | .finished _ => true
  | _ => false

def Worker.weight : Worker → ℕ
  | .waiting => 1
  | .running _ => 2
  | .exited => 0

/-- What is left to do for the workers. -/
def WorkerPool.work (s : WorkerPool) : ℕ :=
  2 * s.queues.tasks.length + (s.workers.map Worker.weight).sum

/-- A worker becomes another. -/
theorem weight_set {workers : List Worker} {x : Worker} (h : workers[w]? = some x) (y : Worker) :
    ((workers.set w y).map Worker.weight).sum + x.weight =
      (workers.map Worker.weight).sum + y.weight := by
  obtain ⟨hlt, rfl⟩ := List.getElem?_eq_some_iff.mp h
  have hnew := ((List.set_perm_cons_eraseIdx hlt y).map Worker.weight).sum_eq
  have hold := ((List.getElem_cons_eraseIdx_perm hlt).map Worker.weight).sum_eq
  rw [List.map_cons, List.sum_cons] at hnew hold
  omega

/-- In its sections a worker does not submit, and does not set the flag. -/
theorem keeps_stop {step : PoolStep} (h : step.OfWorker) :
    (execPool step s).2.stop = s.stop ∧ ∀ t, (execPool step s).1 ≠ .submitted t := by
  cases step with
  | submit worker p => cases h
  | stop => cases h
  | waitIdle => cases h
  | finish w =>
      simp only [execPool]
      split
      · exact ⟨rfl, fun t ht => by cases ht⟩
      · exact ⟨rfl, fun t ht => by cases ht⟩
  | wake w =>
      simp only [execPool, WorkerPool.wake]
      split
      · split
        · exact ⟨rfl, fun t ht => by cases ht⟩
        · split
          · exact ⟨rfl, fun t ht => by cases ht⟩
          · split
            · exact ⟨rfl, fun t ht => by cases ht⟩
            · exact ⟨rfl, fun t ht => by cases ht⟩
      · exact ⟨rfl, fun t ht => by cases ht⟩

/-- A worker that gets on uses up some of the work. -/
theorem work_move {e : PoolEvent} (hm : PoolMove e) (h : ∀ t, e.outcome ≠ .submitted t) :
    e.after.work + (if e.outcome.works then 1 else 0) ≤ e.before.work := by
  cases hm with
  | quiet outcome after =>
      obtain ⟨stop, after⟩ := after
      have hquiet : e.outcome.works = false := by
        rcases outcome with h | h | h
        all_goals
          rw [h]
          rfl
      rw [hquiet, after]
      exact le_refl e.before.work
  | submit outcome after => exact absurd outcome (h _)
  | @take w t queues outcome waiting pop after =>
      obtain ⟨p, rest, hp, rfl, -⟩ := pop_eq_some pop
      have hqueue := (tasks_pop hp).length_eq
      have hweight := weight_set waiting (.running t)
      rw [after, outcome]
      simp only [WorkerPool.work, PoolOutcome.works, Worker.weight, List.length_cons,
        if_true] at *
      omega
  | finish outcome running after =>
      have hweight := weight_set running .waiting
      rw [after, outcome]
      simp only [WorkerPool.work, PoolOutcome.works, Worker.weight, if_true] at *
      omega
  | exit outcome waiting stop empty after =>
      have hweight := weight_set waiting .exited
      rw [after, outcome]
      simp only [WorkerPool.work, PoolOutcome.works, Worker.weight, if_true] at *
      omega

theorem work_usesUp :
    Machine.UsesUp execPool PoolStep.OfWorker (fun e => e.outcome.works) WorkerPool.work :=
  fun s step h => work_move (poolMove s step) (keeps_stop h).2

/-! ## Workers at rest -/

/-- No worker can get on. -/
def WorkerPool.AtRest (s : WorkerPool) : Prop :=
  ∀ step : PoolStep, step.OfWorker → (execPool step s).1.works = false

theorem popFrom_eq_none {ps : List TaskPriority} (h : q.popFrom ps = none) :
    ∀ p ∈ ps, q p = [] := by
  induction ps with
  | nil => exact List.forall_mem_nil _
  | cons p ps ih =>
      rw [Queues.popFrom] at h
      split at h
      · next hnil => exact List.forall_mem_cons.mpr ⟨hnil, ih h⟩
      · cases h

theorem pop_isSome (h : ¬ q.allEmpty = true) : ∃ taken, q.pop = some taken := by
  cases hpop : q.pop with
  | some taken => exact ⟨taken, rfl⟩
  | none =>
      refine absurd (List.all_eq_true.mpr fun p hp => ?_) h
      exact List.isEmpty_iff.mpr (popFrom_eq_none hpop p hp)

/-- At rest a worker has exited, or it waits and there is nothing to wait for but a task. -/
theorem WorkerPool.AtRest.cases (h : s.AtRest) {a : Worker} (ha : s.workers[w]? = some a) :
    a = .exited ∨ (a = .waiting ∧ s.stop = false ∧ s.queues.allEmpty = true) := by
  cases a with
  | exited => exact .inl rfl
  | running t =>
      have hfinish := h (.finish w) trivial
      simp only [execPool, ha, PoolOutcome.works] at hfinish
      cases hfinish
  | waiting =>
      have hwake := h (.wake w) trivial
      simp only [execPool, ha, WorkerPool.wake] at hwake
      by_cases hempty : s.queues.allEmpty = true
      · cases hstop : s.stop with
        | false => exact .inr ⟨rfl, rfl, hempty⟩
        | true =>
            simp only [hstop, hempty, PoolOutcome.works] at hwake
            cases hwake
      · obtain ⟨taken, hpop⟩ := pop_isSome hempty
        simp [hempty, hpop, PoolOutcome.works] at hwake

/-- A pool that is done: nothing is queued, and nothing runs. -/
theorem WorkerPool.AtRest.running_eq_nil (h : s.AtRest) : s.running = [] := by
  rw [WorkerPool.running, List.filterMap_eq_nil_iff]
  intro a ha
  obtain ⟨w, hw⟩ := List.mem_iff_getElem?.mp ha
  cases h.cases hw with
  | inl hexited => rw [hexited]; rfl
  | inr hwaiting => rw [hwaiting.1]; rfl

/-! ## The last worker leaves nothing behind -/

/-- If all workers have exited, nothing is queued. -/
def WorkerPool.LeftNothing (s : WorkerPool) : Prop := s.AllExited → s.queues.allEmpty = true

theorem leftNothing_step {step : PoolStep} (hstep : step.OfWorker) (h : s.LeftNothing) :
    (execPool step s).2.LeftNothing := by
  show (Machine.event execPool s step).after.LeftNothing
  cases poolMove s step with
  | quiet outcome after =>
      obtain ⟨stop, after⟩ := after
      rw [after]
      exact h
  | submit outcome after => exact absurd outcome ((keeps_stop hstep).2 _)
  | take outcome waiting pop after =>
      have hnew {t : Ticket} : Worker.running t ≠ .exited := by simp
      exact fun hall => absurd hall (not_allExited_set waiting hnew (by rw [after]))
  | finish outcome running after =>
      have hnew : Worker.waiting ≠ .exited := by simp
      exact fun hall => absurd hall (not_allExited_set running hnew (by rw [after]))
  | exit outcome waiting stop empty after =>
      intro _
      rw [after]
      exact empty

theorem leftNothing_run {more : List PoolStep} (hmore : ∀ step ∈ more, step.OfWorker)
    (h : s.LeftNothing) : (Machine.final execPool s more).LeftNothing := by
  induction more with
  | nil => exact h
  | cons step more ih =>
      obtain ⟨hstep, hmore⟩ := List.forall_mem_cons.mp hmore
      exact leftNothing_step hstep (ih hmore)

/-- At rest nothing is queued: a worker that waits would take it. -/
theorem WorkerPool.AtRest.allEmpty (h : s.AtRest) (hleft : s.LeftNothing) :
    s.queues.allEmpty = true := by
  by_cases hall : s.AllExited
  · exact hleft hall
  · unfold WorkerPool.AllExited at hall
    push Not at hall
    obtain ⟨a, ha, hne⟩ := hall
    obtain ⟨w, hw⟩ := List.mem_iff_getElem?.mp ha
    cases h.cases hw with
    | inl hexited => exact absurd hexited hne
    | inr hwaiting => exact hwaiting.2.2

/-! ## Main result -/

/-- Everything that was submitted is finished, and whoever waits for that goes on. -/
structure WorkerPool.Drained (s : WorkerPool) : Prop where
  idle : (execPool .waitIdle s).1 = .idle
  completed : s.completed = s.submitted
  exited : s.stop = true → s.AllExited

theorem PoolInv.drained {threads : UInt64} {tr : List PoolEvent} (inv : PoolInv threads tr s)
    (h : s.AtRest) (hleft : s.LeftNothing) : s.Drained := by
  have hrunning := h.running_eq_nil
  have hempty := h.allEmpty hleft
  have hinflight : s.inflight = 0 := by
    rw [inv.inflight, hrunning]
    rfl
  refine ⟨?_, ?_, fun hstop a ha => ?_⟩
  · have hidle : execPool .waitIdle s = (.idle, s) := if_pos ⟨hinflight, hempty⟩
    rw [hidle]
  · have hbalance := inv.balance
    rw [allEmpty_iff.mp hempty, hrunning, List.length_nil, Nat.zero_add] at hbalance
    rw [inv.completed, inv.submitted, hbalance]
  · obtain ⟨w, hw⟩ := List.mem_iff_getElem?.mp ha
    cases h.cases hw with
    | inl hexited => exact hexited
    | inr hwaiting => cases hstop.symm.trans hwaiting.2.1

/-- In every reachable state with a worker left: the workers get on a bounded number of
times, in whatever order they act; once none of them can, the pool is drained; and some
order of their sections leads there. -/
theorem pool_drains (n hardwareConcurrency : UInt64) (steps : List PoolStep)
    (hleft : ¬ (Machine.final execPool (.start n hardwareConcurrency) steps).AllExited) :
    let s := Machine.final execPool (.start n hardwareConcurrency) steps
    (∀ more : List PoolStep, (∀ step ∈ more, step.OfWorker) →
      (Machine.trace execPool s more).countP (fun e => e.outcome.works) ≤ s.work) ∧
    (∀ more : List PoolStep, (∀ step ∈ more, step.OfWorker) →
      (Machine.final execPool s more).AtRest → (Machine.final execPool s more).Drained) ∧
    ∃ more : List PoolStep, (∀ step ∈ more, step.OfWorker) ∧ more.length ≤ s.work ∧
      (Machine.final execPool s more).AtRest := by
  intro s
  refine ⟨fun more hmore => ?_, fun more hmore hrest => ?_, work_usesUp.exists_rest s⟩
  · have hle := work_usesUp.count_le s hmore
    omega
  · have inv := poolInv_run n hardwareConcurrency (more ++ steps)
    rw [Machine.final_append] at inv
    exact inv.drained hrest (leftNothing_run hmore fun hall => absurd hall hleft)

/-- One worker, three tasks and the destructor: the worker gets on at most seven times. -/
theorem pool_drains_oneWorker :
    let s := Machine.final execPool (.start 1 0)
      [.stop, .submit none .apply, .submit none .low, .submit none .high]
    s.work = 7 ∧
      (∀ more : List PoolStep, (∀ step ∈ more, step.OfWorker) →
        (Machine.trace execPool s more).countP (fun e => e.outcome.works) ≤ s.work) ∧
      ∃ more : List PoolStep, more.length ≤ 7 ∧ (Machine.final execPool s more).Drained := by
  intro s
  have hleft : ¬ s.AllExited := fun hall => by
    cases hall .waiting (by decide +kernel)
  obtain ⟨hbound, hdone, more, hmore, hlength, hrest⟩ :=
    pool_drains 1 0 [.stop, .submit none .apply, .submit none .low, .submit none .high] hleft
  have hwork : s.work = 7 := by decide +kernel
  exact ⟨hwork, hbound, more, hwork ▸ hlength, hdone more hmore hrest⟩

end HiveNative.Perf
