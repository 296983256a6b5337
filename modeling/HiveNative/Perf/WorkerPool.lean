import HiveNative.Lib.Machine

/-!
# The worker pool

`perf/worker_pool.hpp`.  A step is one section that holds the mutex, and a run is any
interleaving of steps of any number of submitters, of the workers, of waiters and of
the destructor.  A step that its thread cannot take now leaves the pool as it is.

What a task does is not modelled, but for its submissions: a worker submits only while
it runs a task.  Tasks are told apart by the number of their submission.

Between a worker's two sections it runs its task, so a task is queued, held by a worker
or finished, and never two of these: the invariant is that the three together are a
permutation of the tickets given out (`PoolInv.tasks`).
-/

namespace HiveNative.Perf

/-! ## The model -/

inductive TaskPriority where
  | apply
  | high
  | medium
  | low
deriving Repr, DecidableEq

/-- The value of the enumeration. -/
def TaskPriority.value : TaskPriority → ℕ
  | .apply => 0
  | .high => 1
  | .medium => 2
  | .low => 3

/-- The indices of the queues in their order. -/
def TaskPriority.all : List TaskPriority := [.apply, .high, .medium, .low]

/-- The number of a submission. -/
abbrev Ticket := ℕ

/-- Where a worker is in `loop`. -/
inductive Worker where
  | waiting
  | running (t : Ticket)
  | exited
deriving Repr, DecidableEq

/-- The queues, each with its front first. -/
abbrev Queues := TaskPriority → List Ticket

def Queues.allEmpty (q : Queues) : Bool := TaskPriority.all.all fun p => (q p).isEmpty

def Queues.set (q : Queues) (p : TaskPriority) (tasks : List Ticket) : Queues :=
  Function.update q p tasks

def Queues.push (q : Queues) (p : TaskPriority) (t : Ticket) : Queues := q.set p (q p ++ [t])

/-- The loop of `pop`, over the queues that are left to look at. -/
def Queues.popFrom (q : Queues) : List TaskPriority → Option (Ticket × Queues)
  | [] => none
  | p :: ps =>
      match q p with
      | [] => q.popFrom ps
      | t :: rest => some (t, q.set p rest)

def Queues.pop (q : Queues) : Option (Ticket × Queues) := q.popFrom TaskPriority.all

structure WorkerPool where
  workers : List Worker
  queues : Queues := fun _ => []
  stop : Bool := false
  submitted : UInt64 := 0
  completed : UInt64 := 0
  inflight : UInt64 := 0
  /-- The number of submissions, without a modulus.  No step reads it. -/
  tickets : ℕ := 0

/-- The number of threads the constructor starts. -/
def threadCount (n hardwareConcurrency : UInt64) : UInt64 :=
  if n = 0 then max 1 hardwareConcurrency else n

def WorkerPool.start (n hardwareConcurrency : UInt64) : WorkerPool :=
  { workers := List.replicate (threadCount n hardwareConcurrency).toNat .waiting }

/-- A thread takes a step. -/
inductive PoolStep where
  /-- `submit`, by the task of a worker or by another thread. -/
  | submit (worker : Option ℕ) (p : TaskPriority)
  /-- The first section of `loop`, when its wait is woken. -/
  | wake (w : ℕ)
  /-- The second section of `loop`. -/
  | finish (w : ℕ)
  /-- The section of the destructor. -/
  | stop
  /-- One turn of the loop in `wait_idle`. -/
  | waitIdle
deriving Repr, DecidableEq

inductive PoolOutcome where
  /-- The thread is not there, or it goes on waiting. -/
  | nothing
  | submitted (t : Ticket)
  | took (t : Ticket)
  | exited
  | finished (t : Ticket)
  | stopped
  /-- `wait_idle` returns. -/
  | idle
deriving Repr, DecidableEq

/-- Whether this thread can call `submit`. -/
def WorkerPool.canSubmit (s : WorkerPool) : Option ℕ → Bool
  | none => true
  | some w =>
      match s.workers[w]? with
      | some (.running _) => true
      | _ => false

/-- The first section of `loop` for a worker that waits. -/
def WorkerPool.wake (s : WorkerPool) (w : ℕ) : PoolOutcome × WorkerPool :=
  if ¬ (s.stop ∨ ¬ s.queues.allEmpty) then (.nothing, s)
  else if s.stop ∧ s.queues.allEmpty then
    (.exited, { s with workers := s.workers.set w .exited })
  else
    match s.queues.pop with
    | none => (.nothing, s)
    | some (t, queues) =>
        (.took t,
          { s with
            queues := queues
            workers := s.workers.set w (.running t)
            inflight := s.inflight + 1 })

def execPool (step : PoolStep) (s : WorkerPool) : PoolOutcome × WorkerPool :=
  match step with
  | .submit worker p =>
      if s.canSubmit worker then
        (.submitted s.tickets,
          { s with
            queues := s.queues.push p s.tickets
            submitted := s.submitted + 1
            tickets := s.tickets + 1 })
      else (.nothing, s)
  | .wake w =>
      match s.workers[w]? with
      | some .waiting => s.wake w
      | _ => (.nothing, s)
  | .finish w =>
      match s.workers[w]? with
      | some (.running t) =>
          (.finished t,
            { s with
              workers := s.workers.set w .waiting
              inflight := s.inflight - 1
              completed := s.completed + 1 })
      | _ => (.nothing, s)
  | .stop => (.stopped, { s with stop := true })
  | .waitIdle => if s.inflight = 0 ∧ s.queues.allEmpty then (.idle, s) else (.nothing, s)

abbrev PoolEvent := Machine.Event WorkerPool PoolStep PoolOutcome

variable {s : WorkerPool} {e : PoolEvent} {tr : List PoolEvent} {q q' : Queues} {t : Ticket}
  {w : ℕ} {p : TaskPriority}

/-! ## Queues -/

/-- The tasks in the queues. -/
def Queues.tasks (q : Queues) : List Ticket := TaskPriority.all.flatMap q

theorem mem_tasks {t : Ticket} : t ∈ q.tasks ↔ ∃ p, t ∈ q p := by
  simp only [Queues.tasks, List.mem_flatMap]
  constructor
  · intro h
    obtain ⟨p, -, ht⟩ := h
    exact ⟨p, ht⟩
  · intro h
    obtain ⟨p, ht⟩ := h
    refine ⟨p, ?_, ht⟩
    cases p <;> decide

theorem allEmpty_iff : q.allEmpty = true ↔ q.tasks = [] := by
  simp [Queues.allEmpty, Queues.tasks, TaskPriority.all]

/-- Another list in one queue changes the tasks by the difference of the lists. -/
theorem count_tasks_set (q : Queues) (p : TaskPriority) (tasks : List Ticket) (a : Ticket) :
    (q.set p tasks).tasks.count a + (q p).count a = q.tasks.count a + tasks.count a := by
  cases p <;>
    simp [Queues.set, Queues.tasks, TaskPriority.all, Function.update, List.count_append] <;> omega

theorem tasks_push (q : Queues) (p : TaskPriority) (t : Ticket) :
    (q.push p t).tasks.Perm (t :: q.tasks) := by
  rw [List.perm_iff_count]
  intro a
  have h := count_tasks_set q p (q p ++ [t]) a
  rw [List.count_append, List.count_singleton] at h
  rw [Queues.push, List.count_cons]
  omega

theorem tasks_pop {rest : List Ticket} (h : q p = t :: rest) :
    q.tasks.Perm (t :: (q.set p rest).tasks) := by
  rw [List.perm_iff_count]
  intro a
  have hset := count_tasks_set q p rest a
  rw [h, List.count_cons] at hset
  rw [List.count_cons]
  omega

theorem popFrom_eq_some {ps : List TaskPriority} (h : q.popFrom ps = some (t, q')) :
    ∃ first p later rest, ps = first ++ p :: later ∧ q p = t :: rest ∧ q' = q.set p rest ∧
      ∀ p' ∈ first, q p' = [] := by
  induction ps with
  | nil => cases h
  | cons p ps ih =>
      rw [Queues.popFrom] at h
      split at h
      · next hnil =>
          obtain ⟨first, p', later, rest, hps, hp, hq, hfirst⟩ := ih h
          exact ⟨p :: first, p', later, rest, by rw [hps]; rfl, hp, hq,
            List.forall_mem_cons.mpr ⟨hnil, hfirst⟩⟩
      · next t' rest hcons =>
          cases h
          exact ⟨[], p, ps, rest, rfl, hcons, rfl, List.forall_mem_nil _⟩

/-- `pop` takes the front of the first queue that has one. -/
theorem pop_eq_some (h : q.pop = some (t, q')) :
    ∃ p rest, q p = t :: rest ∧ q' = q.set p rest ∧
      ∀ p' : TaskPriority, p'.value < p.value → q p' = [] := by
  obtain ⟨first, p, later, rest, hall, hp, hq, hfirst⟩ := popFrom_eq_some h
  refine ⟨p, rest, hp, hq, fun p' hlt => ?_⟩
  have hsorted : TaskPriority.all.Pairwise fun a b => a.value < b.value := by decide
  have hmem : p' ∈ TaskPriority.all := by cases p' <;> decide
  rw [hall] at hsorted hmem
  obtain ⟨-, htail, -⟩ := List.pairwise_append.mp hsorted
  cases List.mem_append.mp hmem with
  | inl hin => exact hfirst p' hin
  | inr hin =>
      cases List.mem_cons.mp hin with
      | inl heq =>
          rw [heq] at hlt
          exact absurd hlt (lt_irrefl _)
      | inr hin =>
          have hgt := (List.pairwise_cons.mp htail).1 p' hin
          omega

/-! ## Workers -/

def Worker.task? : Worker → Option Ticket
  | .running t => some t
  | _ => none

/-- The tasks that run. -/
def WorkerPool.running (s : WorkerPool) : List Ticket := s.workers.filterMap Worker.task?

theorem filterMap_cons_toList {α β : Type} (f : α → Option β) (a : α) (l : List α) :
    (a :: l).filterMap f = (f a).toList ++ l.filterMap f := by
  simp only [List.filterMap_eq_flatMap_toList, List.flatMap_cons]

/-- A worker becomes another. -/
theorem count_running_set {workers : List Worker} {x : Worker} (h : workers[w]? = some x)
    (y : Worker) (a : Ticket) :
    ((workers.set w y).filterMap Worker.task?).count a + x.task?.toList.count a =
      (workers.filterMap Worker.task?).count a + y.task?.toList.count a := by
  obtain ⟨hlt, rfl⟩ := List.getElem?_eq_some_iff.mp h
  have hnew := ((List.set_perm_cons_eraseIdx hlt y).filterMap Worker.task?).count_eq a
  have hold := ((List.getElem_cons_eraseIdx_perm hlt).filterMap Worker.task?).count_eq a
  rw [filterMap_cons_toList, List.count_append] at hnew hold
  omega

/-- A worker that exits ran nothing. -/
theorem running_exit {s' : WorkerPool} (h : s.workers[w]? = some .waiting)
    (hs : s'.workers = s.workers.set w .exited) : s'.running.Perm s.running := by
  rw [List.perm_iff_count]
  intro a
  rw [WorkerPool.running, hs]
  exact count_running_set h .exited a

/-! ## Moves -/

def WorkerPool.AllExited (s : WorkerPool) : Prop := ∀ a ∈ s.workers, a = .exited

instance (s : WorkerPool) : Decidable s.AllExited :=
  inferInstanceAs (Decidable (∀ a ∈ s.workers, a = .exited))

/-- What an event can do to the pool. -/
inductive PoolMove (e : PoolEvent) : Prop where
  | quiet (outcome : e.outcome = .nothing ∨ e.outcome = .stopped ∨ e.outcome = .idle)
      (after : ∃ stop, e.after = { e.before with stop := stop })
  | submit {p : TaskPriority} (outcome : e.outcome = .submitted e.before.tickets)
      (after : e.after =
        { e.before with
          queues := e.before.queues.push p e.before.tickets
          submitted := e.before.submitted + 1
          tickets := e.before.tickets + 1 })
  | take {w : ℕ} {t : Ticket} {queues : Queues} (outcome : e.outcome = .took t)
      (waiting : e.before.workers[w]? = some .waiting)
      (pop : e.before.queues.pop = some (t, queues))
      (after : e.after =
        { e.before with
          queues := queues
          workers := e.before.workers.set w (.running t)
          inflight := e.before.inflight + 1 })
  | finish {w : ℕ} {t : Ticket} (outcome : e.outcome = .finished t)
      (running : e.before.workers[w]? = some (.running t))
      (after : e.after =
        { e.before with
          workers := e.before.workers.set w .waiting
          inflight := e.before.inflight - 1
          completed := e.before.completed + 1 })
  | exit {w : ℕ} (outcome : e.outcome = .exited) (waiting : e.before.workers[w]? = some .waiting)
      (stop : e.before.stop = true) (empty : e.before.queues.allEmpty = true)
      (after : e.after = { e.before with workers := e.before.workers.set w .exited })

theorem poolMove (s : WorkerPool) (step : PoolStep) : PoolMove (Machine.event execPool s step) := by
  have quiet : execPool step s = (.nothing, s) → PoolMove (Machine.event execPool s step) := by
    intro h
    exact .quiet (Or.inl (congrArg Prod.fst h)) ⟨s.stop, congrArg Prod.snd h⟩
  cases step with
  | submit worker p =>
      by_cases hcan : s.canSubmit worker = true
      · have h : execPool (.submit worker p) s = _ := if_pos hcan
        exact .submit (congrArg Prod.fst h) (congrArg Prod.snd h)
      · exact quiet (if_neg hcan)
  | stop => exact .quiet (Or.inr (Or.inl rfl)) ⟨true, rfl⟩
  | waitIdle =>
      by_cases hidle : s.inflight = 0 ∧ s.queues.allEmpty = true
      · have h : execPool .waitIdle s = _ := if_pos hidle
        exact .quiet (Or.inr (Or.inr (congrArg Prod.fst h))) ⟨s.stop, congrArg Prod.snd h⟩
      · exact quiet (if_neg hidle)
  | finish w =>
      cases hw : s.workers[w]? with
      | none => exact quiet (by simp only [execPool, hw])
      | some a =>
          cases a with
          | running t =>
              refine .finish (w := w) (t := t) ?_ hw ?_
              · simp only [Machine.event, execPool, hw]
              · simp only [Machine.event, execPool, hw]
          | waiting => exact quiet (by simp only [execPool, hw])
          | exited => exact quiet (by simp only [execPool, hw])
  | wake w =>
      cases hw : s.workers[w]? with
      | none => exact quiet (by simp only [execPool, hw])
      | some a =>
          cases a with
          | running t => exact quiet (by simp only [execPool, hw])
          | exited => exact quiet (by simp only [execPool, hw])
          | waiting =>
              have hwake : execPool (.wake w) s = s.wake w := by simp only [execPool, hw]
              unfold WorkerPool.wake at hwake
              by_cases hpred : ¬ (s.stop = true ∨ ¬ s.queues.allEmpty = true)
              · rw [if_pos hpred] at hwake
                exact quiet hwake
              by_cases hexit : s.stop = true ∧ s.queues.allEmpty = true
              · rw [if_neg hpred, if_pos hexit] at hwake
                exact .exit (congrArg Prod.fst hwake) hw hexit.1 hexit.2 (congrArg Prod.snd hwake)
              rw [if_neg hpred, if_neg hexit] at hwake
              cases hpop : s.queues.pop with
              | none =>
                  rw [hpop] at hwake
                  exact quiet hwake
              | some taken =>
                  rw [hpop] at hwake
                  exact .take (congrArg Prod.fst hwake) hw hpop (congrArg Prod.snd hwake)

/-! ## The invariant -/

def PoolOutcome.submitted? : PoolOutcome → Option Ticket
  | .submitted t => some t
  | _ => none

def PoolOutcome.taken? : PoolOutcome → Option Ticket
  | .took t => some t
  | _ => none

def PoolOutcome.finished? : PoolOutcome → Option Ticket
  | .finished t => some t
  | _ => none

/-- The tasks that were submitted, the latest first. -/
def submittedIn (tr : List PoolEvent) : List Ticket := tr.filterMap (·.outcome.submitted?)

/-- The tasks the workers took, the latest first. -/
def takenIn (tr : List PoolEvent) : List Ticket := tr.filterMap (·.outcome.taken?)

/-- The tasks the workers finished, the latest first. -/
def finishedIn (tr : List PoolEvent) : List Ticket := tr.filterMap (·.outcome.finished?)

structure PoolInv (threads : UInt64) (tr : List PoolEvent) (s : WorkerPool) : Prop where
  threads : s.workers.length = threads.toNat
  /-- Every task is queued, runs or is finished. -/
  tasks : (s.queues.tasks ++ s.running ++ finishedIn tr).Perm (submittedIn tr)
  taken : (takenIn tr).Perm (s.running ++ finishedIn tr)
  /-- A queue holds its tasks in the order of their submission. -/
  ordered : ∀ p, (s.queues p).Pairwise (· < ·)
  /-- Submissions are numbered from zero on. -/
  numbered : submittedIn tr = (List.range s.tickets).reverse
  submitted : s.submitted = UInt64.ofNat (submittedIn tr).length
  inflight : s.inflight = UInt64.ofNat s.running.length
  completed : s.completed = UInt64.ofNat (finishedIn tr).length

theorem poolInv_start (n hardwareConcurrency : UInt64) :
    PoolInv (threadCount n hardwareConcurrency) [] (.start n hardwareConcurrency) := by
  have hrunning : (WorkerPool.start n hardwareConcurrency).running = [] := by
    rw [WorkerPool.running, List.filterMap_eq_nil_iff]
    intro a ha
    rw [List.eq_of_mem_replicate ha]
    rfl
  refine ⟨List.length_replicate, ?_, ?_, fun p => List.Pairwise.nil, rfl, rfl, ?_, rfl⟩
  · rw [hrunning]
    exact List.Perm.refl []
  · rw [hrunning]
    exact List.Perm.refl []
  · rw [hrunning]
    rfl

theorem PoolInv.lt_tickets {threads : UInt64} (inv : PoolInv threads tr s) {t : Ticket}
    (h : t ∈ s.queues p) : t < s.tickets := by
  have hmem : t ∈ s.queues.tasks ++ s.running ++ finishedIn tr :=
    List.mem_append_left _ (List.mem_append_left _ (mem_tasks.mpr ⟨p, h⟩))
  have hsubmitted := inv.tasks.mem_iff.mp hmem
  rw [inv.numbered] at hsubmitted
  exact List.mem_range.mp (List.mem_reverse.mp hsubmitted)

theorem submittedIn_cons (e : PoolEvent) (tr : List PoolEvent) :
    submittedIn (e :: tr) = e.outcome.submitted?.toList ++ submittedIn tr :=
  filterMap_cons_toList _ e tr

theorem takenIn_cons (e : PoolEvent) (tr : List PoolEvent) :
    takenIn (e :: tr) = e.outcome.taken?.toList ++ takenIn tr :=
  filterMap_cons_toList _ e tr

theorem finishedIn_cons (e : PoolEvent) (tr : List PoolEvent) :
    finishedIn (e :: tr) = e.outcome.finished?.toList ++ finishedIn tr :=
  filterMap_cons_toList _ e tr

/-- The queues stay in order when one of them is replaced by a list in order. -/
theorem ordered_set {tasks : List Ticket} (h : ∀ p, (q p).Pairwise (· < ·))
    (htasks : tasks.Pairwise (· < ·)) (p' : TaskPriority) :
    (q.set p tasks p').Pairwise (· < ·) := by
  unfold Queues.set
  by_cases heq : p' = p
  · rw [heq, Function.update_self]
    exact htasks
  · rw [Function.update_of_ne heq]
    exact h p'

theorem PoolInv.submit {threads : UInt64} (inv : PoolInv threads tr e.before)
    (outcome : e.outcome = .submitted e.before.tickets)
    (after : e.after =
      { e.before with
        queues := e.before.queues.push p e.before.tickets
        submitted := e.before.submitted + 1
        tickets := e.before.tickets + 1 }) : PoolInv threads (e :: tr) e.after := by
  have hsubmitted : submittedIn (e :: tr) = e.before.tickets :: submittedIn tr := by
    rw [submittedIn_cons, outcome]
    rfl
  have hfinished : finishedIn (e :: tr) = finishedIn tr := by
    rw [finishedIn_cons, outcome]
    rfl
  have htaken : takenIn (e :: tr) = takenIn tr := by
    rw [takenIn_cons, outcome]
    rfl
  rw [after]
  refine ⟨inv.threads, ?_, ?_, ordered_set inv.ordered ?_, ?_, ?_, inv.inflight, ?_⟩
  · rw [hfinished, hsubmitted, List.perm_iff_count]
    intro a
    have hold := inv.tasks.count_eq a
    have hpush := (tasks_push e.before.queues p e.before.tickets).count_eq a
    show (_ ++ e.before.running ++ _).count a = _
    simp only [List.count_append, List.count_cons] at *
    omega
  · rw [hfinished, htaken]
    exact inv.taken
  · refine List.pairwise_append.mpr ⟨inv.ordered p, List.pairwise_singleton _ _, ?_⟩
    intro t ht u hu
    rw [List.mem_singleton.mp hu]
    exact inv.lt_tickets ht
  · rw [hsubmitted, inv.numbered]
    show _ = (List.range (e.before.tickets + 1)).reverse
    rw [List.range_succ, List.reverse_append]
    rfl
  · show e.before.submitted + 1 = _
    rw [inv.submitted, hsubmitted, List.length_cons]
    exact (UInt64.ofNat_add _ 1).symm
  · rw [hfinished]
    exact inv.completed

theorem PoolInv.take {threads : UInt64} (inv : PoolInv threads tr e.before) {queues : Queues}
    (outcome : e.outcome = .took t) (waiting : e.before.workers[w]? = some .waiting)
    (pop : e.before.queues.pop = some (t, queues))
    (after : e.after =
      { e.before with
        queues := queues
        workers := e.before.workers.set w (.running t)
        inflight := e.before.inflight + 1 }) : PoolInv threads (e :: tr) e.after := by
  have hsubmitted : submittedIn (e :: tr) = submittedIn tr := by
    rw [submittedIn_cons, outcome]
    rfl
  have hfinished : finishedIn (e :: tr) = finishedIn tr := by
    rw [finishedIn_cons, outcome]
    rfl
  have htaken : takenIn (e :: tr) = t :: takenIn tr := by
    rw [takenIn_cons, outcome]
    rfl
  obtain ⟨p, rest, hp, rfl, -⟩ := pop_eq_some pop
  have hrunning : e.after.running.Perm (t :: e.before.running) := by
    rw [List.perm_iff_count]
    intro a
    have hset := count_running_set waiting (.running t) a
    have hworkers : e.after.workers = e.before.workers.set w (.running t) := by rw [after]
    rw [WorkerPool.running, WorkerPool.running, hworkers, List.count_cons]
    simp only [Worker.task?, Option.toList_none, List.count_nil, Option.toList_some,
      List.count_singleton] at hset
    omega
  have hqueues : e.after.queues = e.before.queues.set p rest := by rw [after]
  refine ⟨?_, ?_, ?_, ?_, ?_, ?_, ?_, ?_⟩
  · rw [after, List.length_set]
    exact inv.threads
  · rw [hfinished, hsubmitted, List.perm_iff_count, hqueues]
    intro a
    have hold := inv.tasks.count_eq a
    have hpop := (tasks_pop hp).count_eq a
    have hrun := hrunning.count_eq a
    simp only [List.count_append, List.count_cons] at *
    omega
  · rw [hfinished, htaken]
    exact (inv.taken.cons t).trans (hrunning.symm.append_right _)
  · rw [hqueues]
    have hcons := inv.ordered p
    rw [hp] at hcons
    exact ordered_set inv.ordered (List.pairwise_cons.mp hcons).2
  · rw [hsubmitted, after]
    exact inv.numbered
  · rw [hsubmitted, after]
    exact inv.submitted
  · rw [hrunning.length_eq, after, List.length_cons]
    show e.before.inflight + 1 = _
    rw [inv.inflight]
    exact (UInt64.ofNat_add _ 1).symm
  · rw [hfinished, after]
    exact inv.completed

theorem PoolInv.finish {threads : UInt64} (inv : PoolInv threads tr e.before)
    (outcome : e.outcome = .finished t) (running : e.before.workers[w]? = some (.running t))
    (after : e.after =
      { e.before with
        workers := e.before.workers.set w .waiting
        inflight := e.before.inflight - 1
        completed := e.before.completed + 1 }) : PoolInv threads (e :: tr) e.after := by
  have hsubmitted : submittedIn (e :: tr) = submittedIn tr := by
    rw [submittedIn_cons, outcome]
    rfl
  have hfinished : finishedIn (e :: tr) = t :: finishedIn tr := by
    rw [finishedIn_cons, outcome]
    rfl
  have htaken : takenIn (e :: tr) = takenIn tr := by
    rw [takenIn_cons, outcome]
    rfl
  have hrunning : e.before.running.Perm (t :: e.after.running) := by
    rw [List.perm_iff_count]
    intro a
    have hset := count_running_set running .waiting a
    have hworkers : e.after.workers = e.before.workers.set w .waiting := by rw [after]
    rw [WorkerPool.running, WorkerPool.running, hworkers, List.count_cons]
    simp only [Worker.task?, Option.toList_none, List.count_nil, Option.toList_some,
      List.count_singleton] at hset
    omega
  have hmoved : (e.after.running ++ t :: finishedIn tr).Perm
      (e.before.running ++ finishedIn tr) :=
    List.perm_middle.trans (hrunning.symm.append_right _)
  have hqueues : e.after.queues = e.before.queues := by rw [after]
  refine ⟨?_, ?_, ?_, ?_, ?_, ?_, ?_, ?_⟩
  · rw [after, List.length_set]
    exact inv.threads
  · have hold := inv.tasks
    rw [List.append_assoc] at hold
    rw [hfinished, hsubmitted, hqueues, List.append_assoc]
    exact (hmoved.append_left _).trans hold
  · rw [hfinished, htaken]
    exact inv.taken.trans hmoved.symm
  · rw [hqueues]
    exact inv.ordered
  · rw [hsubmitted, after]
    exact inv.numbered
  · rw [hsubmitted, after]
    exact inv.submitted
  · have hlength := hrunning.length_eq
    rw [List.length_cons] at hlength
    rw [after]
    show e.before.inflight - 1 = _
    rw [inv.inflight, hlength, UInt64.ofNat_add, after]
    exact UInt64.add_sub_cancel _ 1
  · rw [hfinished, after]
    show e.before.completed + 1 = _
    rw [inv.completed]
    exact (UInt64.ofNat_add _ 1).symm

/-- A move that takes, finishes and submits nothing, and whose workers run what they
ran. -/
theorem PoolInv.keep {threads : UInt64} (inv : PoolInv threads tr e.before)
    (submission : e.outcome.submitted? = none) (taken : e.outcome.taken? = none)
    (finished : e.outcome.finished? = none)
    (length : e.after.workers.length = e.before.workers.length)
    (running : e.after.running.Perm e.before.running)
    (queues : e.after.queues = e.before.queues) (tickets : e.after.tickets = e.before.tickets)
    (submitted : e.after.submitted = e.before.submitted)
    (inflight : e.after.inflight = e.before.inflight)
    (completed : e.after.completed = e.before.completed) : PoolInv threads (e :: tr) e.after := by
  have hsubmitted : submittedIn (e :: tr) = submittedIn tr := by
    rw [submittedIn_cons, submission]
    rfl
  have hfinished : finishedIn (e :: tr) = finishedIn tr := by
    rw [finishedIn_cons, finished]
    rfl
  have htaken : takenIn (e :: tr) = takenIn tr := by
    rw [takenIn_cons, taken]
    rfl
  refine ⟨length.trans inv.threads, ?_, ?_, ?_, ?_, ?_, ?_, ?_⟩
  · rw [hfinished, hsubmitted, queues]
    exact ((running.append_left _).append_right _).trans inv.tasks
  · rw [hfinished, htaken]
    exact inv.taken.trans (running.symm.append_right _)
  · rw [queues]
    exact inv.ordered
  · rw [hsubmitted, tickets]
    exact inv.numbered
  · rw [submitted, hsubmitted]
    exact inv.submitted
  · rw [inflight, running.length_eq]
    exact inv.inflight
  · rw [hfinished, completed]
    exact inv.completed

theorem poolInv_step {threads : UInt64} (step : PoolStep) (inv : PoolInv threads tr s) :
    PoolInv threads (Machine.event execPool s step :: tr) (execPool step s).2 := by
  have hinv : PoolInv threads tr (Machine.event execPool s step).before := inv
  show PoolInv threads _ (Machine.event execPool s step).after
  cases poolMove s step with
  | submit outcome after => exact hinv.submit outcome after
  | take outcome waiting pop after => exact hinv.take outcome waiting pop after
  | finish outcome running after => exact hinv.finish outcome running after
  | quiet outcome after =>
      obtain ⟨stop, after⟩ := after
      have hsilent : (Machine.event execPool s step).outcome.submitted? = none ∧
          (Machine.event execPool s step).outcome.taken? = none ∧
          (Machine.event execPool s step).outcome.finished? = none := by
        rcases outcome with h | h | h
        all_goals
          rw [h]
          exact ⟨rfl, rfl, rfl⟩
      refine hinv.keep hsilent.1 hsilent.2.1 hsilent.2.2 ?_ ?_ ?_ ?_ ?_ ?_ ?_
      all_goals rw [after]
      exact List.Perm.refl _
  | @exit w outcome waiting stop empty after =>
      refine hinv.keep (by rw [outcome]; rfl) (by rw [outcome]; rfl) (by rw [outcome]; rfl) ?_
        (running_exit waiting (by rw [after])) ?_ ?_ ?_ ?_ ?_
      · rw [after, List.length_set]
      all_goals rw [after]

theorem poolInv_run (n hardwareConcurrency : UInt64) (steps : List PoolStep) :
    PoolInv (threadCount n hardwareConcurrency)
      (Machine.trace execPool (.start n hardwareConcurrency) steps)
      (Machine.final execPool (.start n hardwareConcurrency) steps) :=
  Machine.invariant (PoolInv (threadCount n hardwareConcurrency))
    (poolInv_start n hardwareConcurrency) (fun _ _ step inv => poolInv_step step inv) steps

/-! ## What the invariant gives -/

section Run

variable {threads : UInt64}

theorem PoolInv.balance (inv : PoolInv threads tr s) :
    (submittedIn tr).length =
      s.queues.tasks.length + s.running.length + (finishedIn tr).length := by
  have hlength := inv.tasks.length_eq
  rw [List.length_append, List.length_append] at hlength
  exact hlength.symm

theorem PoolInv.submitted_nodup (inv : PoolInv threads tr s) : (submittedIn tr).Nodup := by
  rw [inv.numbered]
  exact List.nodup_reverse.mpr List.nodup_range

theorem PoolInv.nodup (inv : PoolInv threads tr s) :
    (s.queues.tasks ++ s.running ++ finishedIn tr).Nodup :=
  inv.tasks.nodup_iff.mpr inv.submitted_nodup

/-- A task that was taken had been submitted. -/
theorem PoolInv.taken_subset (inv : PoolInv threads tr s) : takenIn tr ⊆ submittedIn tr := by
  intro t ht
  have hmem := inv.taken.mem_iff.mp ht
  refine inv.tasks.mem_iff.mp ?_
  rw [List.append_assoc]
  exact List.mem_append_right _ hmem

theorem PoolInv.taken_nodup (inv : PoolInv threads tr s) : (takenIn tr).Nodup := by
  have hall := inv.nodup
  rw [List.append_assoc] at hall
  exact inv.taken.nodup_iff.mpr (List.nodup_append.mp hall).2.1

/-- A finished task was taken once and finished once. -/
theorem PoolInv.once (inv : PoolInv threads tr s) {t : Ticket} (h : t ∈ finishedIn tr) :
    (takenIn tr).count t = 1 ∧ (finishedIn tr).count t = 1 :=
  ⟨List.count_eq_one_of_mem inv.taken_nodup (inv.taken.mem_iff.mpr (List.mem_append_right _ h)),
    List.count_eq_one_of_mem (List.nodup_append.mp inv.nodup).2.1 h⟩

/-- With nothing queued and nothing running, everything is finished. -/
theorem PoolInv.all_finished (inv : PoolInv threads tr s) (hqueues : s.queues.allEmpty = true)
    (hrunning : s.running = []) {t : Ticket} (ht : t ∈ submittedIn tr) : t ∈ finishedIn tr := by
  have hmem := inv.tasks.mem_iff.mpr ht
  rw [allEmpty_iff.mp hqueues, hrunning] at hmem
  exact hmem

/-- `inflight_` is zero only if no worker runs a task: there are fewer than `2^64`. -/
theorem PoolInv.running_eq_nil (inv : PoolInv threads tr s) (h : s.inflight = 0) :
    s.running = [] := by
  have hle : s.running.length ≤ threads.toNat := inv.threads ▸ List.length_filterMap_le _ _
  have hlt := threads.toNat_lt
  have hzero := congrArg UInt64.toNat (inv.inflight.symm.trans h)
  rw [UInt64.toNat_ofNat', UInt64.toNat_zero] at hzero
  exact List.eq_nil_of_length_eq_zero (by omega)

/-- `wait_idle` returns. -/
theorem waitIdle_returns (h : (execPool .waitIdle s).1 = .idle) :
    s.inflight = 0 ∧ s.queues.allEmpty = true := by
  by_contra hno
  have hexec : execPool .waitIdle s = (.nothing, s) := if_neg hno
  rw [hexec] at h
  cases h

theorem running_of_allExited (h : s.AllExited) : s.running = [] := by
  rw [WorkerPool.running, List.filterMap_eq_nil_iff]
  intro a ha
  rw [h a ha]
  rfl

/-- The exit of the last worker. -/
structure LastExit (e : PoolEvent) : Prop where
  outcome : e.outcome = .exited
  stopped : e.before.stop = true
  before : ¬ e.before.AllExited
  after : e.after.AllExited

/-- A worker that was given another state than `exited` has not exited. -/
theorem not_allExited_set {workers : List Worker} {x y : Worker} (h : workers[w]? = some x)
    (hy : y ≠ .exited) (hs : s.workers = workers.set w y) : ¬ s.AllExited := by
  intro hall
  obtain ⟨hlt, -⟩ := List.getElem?_eq_some_iff.mp h
  refine hy (hall y ?_)
  rw [hs]
  exact List.mem_set hlt y

/-- The last worker exits with nothing left to do. -/
theorem lastExit_of_event {step : PoolStep} (hbefore : ¬ s.AllExited)
    (hafter : (Machine.event execPool s step).after.AllExited) :
    LastExit (Machine.event execPool s step) ∧ s.queues.allEmpty = true ∧ s.running = [] := by
  have keep : (Machine.event execPool s step).after.workers = s.workers → False := by
    intro heq
    unfold WorkerPool.AllExited at hafter
    rw [heq] at hafter
    exact hbefore hafter
  cases poolMove s step with
  | quiet outcome after =>
      obtain ⟨stop, after⟩ := after
      exact (keep (by rw [after]; rfl)).elim
  | submit outcome after => exact (keep (by rw [after]; rfl)).elim
  | @take w t queues outcome waiting pop after =>
      have hnew : Worker.running t ≠ .exited := by simp
      exact absurd hafter (not_allExited_set waiting hnew (by rw [after]))
  | finish outcome running after =>
      have hnew : Worker.waiting ≠ .exited := by simp
      exact absurd hafter (not_allExited_set running hnew (by rw [after]))
  | exit outcome waiting stop empty after =>
      have hperm : (Machine.event execPool s step).after.running.Perm s.running :=
        running_exit waiting (by rw [after]; rfl)
      rw [running_of_allExited hafter] at hperm
      exact ⟨⟨outcome, stop, hbefore, hafter⟩, empty, hperm.nil_eq.symm⟩

/-- When the last worker exits, everything submitted until then is finished. -/
theorem finished_of_lastExit {step : PoolStep} (inv : PoolInv threads tr s)
    (h : LastExit (Machine.event execPool s step)) {t : Ticket} (ht : t ∈ submittedIn tr) :
    t ∈ finishedIn tr := by
  obtain ⟨-, hempty, hrunning⟩ := lastExit_of_event h.before h.after
  exact inv.all_finished hempty hrunning ht

/-- All workers have exited, so one of them was the last. -/
theorem exists_lastExit {start : WorkerPool} (hstart : ¬ start.AllExited) {steps : List PoolStep}
    (h : (Machine.final execPool start steps).AllExited) :
    ∃ e ∈ Machine.trace execPool start steps, LastExit e := by
  induction steps with
  | nil => exact absurd h hstart
  | cons step steps ih =>
      rw [Machine.trace_cons]
      by_cases hbefore : (Machine.final execPool start steps).AllExited
      · obtain ⟨e, he, hlast⟩ := ih hbefore
        exact ⟨e, List.mem_cons_of_mem _ he, hlast⟩
      · exact ⟨_, List.mem_cons_self, (lastExit_of_event hbefore h).1⟩

end Run

/-! ## Main result -/

/-- There is a worker. -/
theorem threadCount_pos (n hardwareConcurrency : UInt64) :
    0 < (threadCount n hardwareConcurrency).toNat := by
  unfold threadCount
  split
  · have hmax : max 1 hardwareConcurrency =
        if 1 ≤ hardwareConcurrency then hardwareConcurrency else 1 := rfl
    rw [hmax]
    split
    · next hle => exact UInt64.le_iff_toNat_le.mp hle
    · decide
  · next hn =>
      have hne : n.toNat ≠ 0 := fun hz => hn (UInt64.toNat_inj.mp hz)
      omega

theorem not_allExited_start (n hardwareConcurrency : UInt64) :
    ¬ (WorkerPool.start n hardwareConcurrency).AllExited := by
  intro h
  have hpos := threadCount_pos n hardwareConcurrency
  have hmem : Worker.waiting ∈ (WorkerPool.start n hardwareConcurrency).workers :=
    List.mem_replicate.mpr ⟨by omega, rfl⟩
  cases h _ hmem

/-- The task a worker takes: the oldest of the first queue that is not empty. -/
structure TakesOldest (e : PoolEvent) (t : Ticket) (p : TaskPriority) : Prop where
  front : (e.before.queues p).head? = some t
  oldest : ∀ u ∈ e.before.queues p, t ≤ u
  first : ∀ p' : TaskPriority, p'.value < p.value → e.before.queues p' = []
  removed : e.after.queues = e.before.queues.set p (e.before.queues p).tail

theorem PoolInv.takesOldest {threads : UInt64} {step : PoolStep} (inv : PoolInv threads tr s)
    (htook : (Machine.event execPool s step).outcome = .took t) :
    ∃ p, TakesOldest (Machine.event execPool s step) t p := by
  cases poolMove s step with
  | quiet outcome after =>
      rw [htook] at outcome
      rcases outcome with h | h | h
      all_goals cases h
  | submit outcome after =>
      rw [htook] at outcome
      cases outcome
  | finish outcome running after =>
      rw [htook] at outcome
      cases outcome
  | exit outcome waiting stop empty after =>
      rw [htook] at outcome
      cases outcome
  | take outcome waiting pop after =>
      rw [htook] at outcome
      cases outcome
      obtain ⟨p, rest, hp, hqueues, hfirst⟩ := pop_eq_some pop
      have hordered := inv.ordered p
      rw [show s.queues p = t :: rest from hp, List.pairwise_cons] at hordered
      refine ⟨p, ?_, fun u hu => ?_, hfirst, ?_⟩
      · rw [hp]
        rfl
      · rw [hp] at hu
        cases List.mem_cons.mp hu with
        | inl heq => exact heq.ge
        | inr hrest => exact (hordered.1 u hrest).le
      · rw [after, hp]
        exact hqueues

/-- The pool loses and repeats no task, in any interleaving.  The counters count what the
threads did, and add up; a task that was submitted is taken at most once, and in the order
of priority and age; `wait_idle` returns only when every task submitted so far is finished;
and once all workers have exited, one of them was the last, and every task submitted before
its exit has been run once. -/
theorem worker_pool_exact (n hardwareConcurrency : UInt64) (steps : List PoolStep) :
    let s := Machine.final execPool (.start n hardwareConcurrency) steps
    let tr := Machine.trace execPool (.start n hardwareConcurrency) steps
    (s.submitted = UInt64.ofNat s.queues.tasks.length + s.inflight + s.completed ∧
        s.submitted = UInt64.ofNat (submittedIn tr).length ∧
        (submittedIn tr).length =
          s.queues.tasks.length + s.running.length + (finishedIn tr).length) ∧
      ((submittedIn tr).Nodup ∧ takenIn tr ⊆ submittedIn tr ∧ (takenIn tr).Nodup) ∧
      (∀ e ∈ tr, ∀ t, e.outcome = .took t → ∃ p, TakesOldest e t p) ∧
      ((execPool .waitIdle s).1 = .idle → ∀ t ∈ submittedIn tr, t ∈ finishedIn tr) ∧
      (s.AllExited → ∃ e ∈ tr, LastExit e) ∧
      ∀ later e earlier, tr = later ++ e :: earlier → LastExit e → ∀ t ∈ submittedIn earlier,
        (takenIn tr).count t = 1 ∧ (finishedIn tr).count t = 1 := by
  intro s tr
  have inv : PoolInv (threadCount n hardwareConcurrency) tr s := poolInv_run _ _ steps
  refine ⟨⟨?_, inv.submitted, inv.balance⟩,
    ⟨inv.submitted_nodup, inv.taken_subset, inv.taken_nodup⟩, fun e he t htook => ?_,
    fun hidle t ht => ?_, exists_lastExit (not_allExited_start n hardwareConcurrency),
    fun later e earlier htr hlast t ht => ?_⟩
  · rw [inv.submitted, inv.balance, inv.inflight, inv.completed, UInt64.ofNat_add,
      UInt64.ofNat_add]
  · obtain ⟨later, earlier, -, heq⟩ := Machine.mem_trace he
    rw [heq] at htook ⊢
    exact (poolInv_run n hardwareConcurrency earlier).takesOldest htook
  · obtain ⟨hinflight, hempty⟩ := waitIdle_returns hidle
    exact inv.all_finished hempty (inv.running_eq_nil hinflight) ht
  · obtain ⟨newer, older, -, rfl, hev⟩ := Machine.trace_split htr
    rw [hev] at hlast
    have hdone := finished_of_lastExit (poolInv_run n hardwareConcurrency older) hlast ht
    refine inv.once ?_
    rw [htr, finishedIn, List.filterMap_append, ← List.singleton_append, List.filterMap_append]
    exact List.mem_append_right _ (List.mem_append_right _ hdone)

/-- Two workers, a task that submits another one, and the destructor while they run. -/
def shutdownSteps : List PoolStep :=
  [ .wake 0, .finish 0, .wake 1, .finish 1, .wake 0, .finish 0, .wake 1, .stop,
    .submit (some 0) .apply, .wake 0, .submit none .high, .submit none .low ]

theorem worker_pool_exact_shutdown :
    let tr := Machine.trace execPool (.start 2 0) shutdownSteps
    submittedIn tr = [2, 1, 0] ∧ takenIn tr = [0, 2, 1] ∧
      ∀ t ∈ submittedIn tr, (takenIn tr).count t = 1 ∧ (finishedIn tr).count t = 1 := by
  intro tr
  obtain ⟨-, -, -, -, -, hlast⟩ := worker_pool_exact 2 0 shutdownSteps
  refine ⟨by decide +kernel, by decide +kernel, hlast [] _ tr.tail rfl ?_⟩
  exact ⟨by decide +kernel, by decide +kernel, by decide +kernel, by decide +kernel⟩

end HiveNative.Perf
