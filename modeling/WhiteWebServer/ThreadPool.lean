import WhiteWebServer.Lib.Machine

/-!
# The thread pool

`ThreadPool` hands tasks from the threads that add them to its workers. §1 the pool;
each region under `mutex_` is one step, and so is each `notify_one`, which comes behind
the region that pushed. §2 what a worker does with the mutex; §3 no task is lost and no
worker sleeps over one.
-/

namespace WhiteWebServer

/-! ## §1  The pool -/

/-- Where a worker stands: it asks for `mutex_` (at its start, awake again, or behind a
task), sleeps in `cond_.wait`, runs a task, or has returned. -/
inductive Worker (Task : Type)
  | locking
  | waiting
  | running (task : Task)
  | returned

namespace Worker

variable {Task : Type}

def isWaiting : Worker Task → Bool
  | .waiting => true
  | _ => false

/-- It comes back to the loop without being notified. -/
def isAwake : Worker Task → Bool
  | .locking => true
  | .running _ => true
  | _ => false

end Worker

/-- The pool, its workers, and how many calls of `AddTask` have pushed and not yet
notified. -/
structure ThreadPool (Task : Type) where
  isClose : Bool
  tasksQueue : List Task
  workers : List (Worker Task)
  notifies : Nat

namespace ThreadPool

variable {Task : Type}

def new (threadNum : Nat) : ThreadPool Task :=
  { isClose := false
    tasksQueue := []
    workers := List.replicate (if threadNum > 32 then 32 else threadNum) .locking
    notifies := 0 }

def setWorker (i : Nat) (w : Worker Task) (s : ThreadPool Task) : ThreadPool Task :=
  { s with workers := s.workers.set i w }

/-- `AddTask` under the mutex. -/
def push (task : Task) (s : ThreadPool Task) : ThreadPool Task :=
  { s with tasksQueue := s.tasksQueue ++ [task], notifies := s.notifies + 1 }

/-- `AddTask`'s `notify_one`: it wakes one worker that waits, `woken`, and none only where
none waits. -/
def notifyOne (woken : Option Nat) (s : ThreadPool Task) : Option (ThreadPool Task) :=
  if s.notifies = 0 then none
  else
    match woken with
    | none =>
        if s.workers.any Worker.isWaiting then none
        else some { s with notifies := s.notifies - 1 }
    | some i =>
        match s.workers[i]? with
        | some .waiting => some ({ s with notifies := s.notifies - 1 }.setWorker i .locking)
        | _ => none

/-- The loop of `Run` from where worker `i` has the mutex to where it gives it up, and the
task it takes. -/
def loop (i : Nat) (s : ThreadPool Task) : ThreadPool Task × Option Task :=
  if s.isClose then (s.setWorker i .returned, none)
  else
    match s.tasksQueue with
    | task :: tasks => ({ s with tasksQueue := tasks }.setWorker i (.running task), some task)
    | [] => (s.setWorker i .waiting, none)

/-- The destructor: `is_close_` and `notify_all`. -/
def close (s : ThreadPool Task) : ThreadPool Task :=
  { s with isClose := true
           workers := s.workers.map fun w => if w.isWaiting then .locking else w }

/-- `lock i`: worker `i` gets the mutex; `wake i`: it wakes up unasked; `finish i`: its
task returns. -/
inductive PoolStep (Task : Type)
  | push (task : Task)
  | notifyOne (woken : Option Nat)
  | lock (i : Nat)
  | wake (i : Nat)
  | finish (i : Nat)
  | close

/-- The pool's steps, and the task each dequeues. -/
def poolStep (s : ThreadPool Task) : PoolStep Task → Option (ThreadPool Task × Option Task)
  | .push task => some (s.push task, none)
  | .notifyOne woken => (s.notifyOne woken).map (·, none)
  | .lock i =>
      match s.workers[i]? with
      | some .locking => some (s.loop i)
      | _ => none
  | .wake i =>
      match s.workers[i]? with
      | some .waiting => some (s.setWorker i .locking, none)
      | _ => none
  | .finish i =>
      match s.workers[i]? with
      | some (.running _) => some (s.setWorker i .locking, none)
      | _ => none
  | .close => some (s.close, none)

def threadPool (threadNum : Nat) : Machine (ThreadPool Task) (PoolStep Task) (Option Task) where
  init := new threadNum
  step := poolStep

/-- The task that a step adds. -/
def PoolStep.added : PoolStep Task → Option Task
  | .push task => some task
  | _ => none

/-- The tasks added in a run, in the order of the pushes. -/
def added (steps : List (PoolStep Task)) : List Task := steps.filterMap PoolStep.added

/-- The tasks dequeued in a run, in order. -/
def dequeued (outs : List (Option Task)) : List Task := outs.filterMap id

/-! ## §2  What the steps do -/

/-- The queue is first in, first out: what it holds and a step adds is what the step
dequeues and what it holds then. -/
theorem poolStep_queue {s s' : ThreadPool Task} {step : PoolStep Task} {out : Option Task}
    (h : s.poolStep step = some (s', out)) :
    s.tasksQueue ++ step.added.toList = out.toList ++ s'.tasksQueue := by
  cases step with
  | push task =>
      cases h
      rfl
  | notifyOne woken =>
      obtain ⟨t, hnotify, ht⟩ := Option.map_eq_some_iff.mp h
      cases ht
      -- a notification moves workers only
      have hqueue : s'.tasksQueue = s.tasksQueue := by
        unfold notifyOne at hnotify
        split at hnotify
        · cases hnotify
        · split at hnotify <;> split at hnotify <;> cases hnotify <;> rfl
      rw [hqueue]
      exact List.append_nil _
  | lock i =>
      simp only [poolStep] at h
      split at h
      · simp only [Option.some.injEq, loop] at h
        split at h
        · cases h
          exact List.append_nil _
        · split at h
          · -- the only step that dequeues, at the front
            rename_i task tasks hqueue
            cases h
            rw [hqueue]
            exact List.append_nil _
          · rename_i hqueue
            cases h
            exact List.append_nil _
      · cases h
  | wake i =>
      simp only [poolStep] at h
      split at h <;> cases h
      exact List.append_nil _
  | finish i =>
      simp only [poolStep] at h
      split at h <;> cases h
      exact List.append_nil _
  | close =>
      cases h
      exact List.append_nil _

/-- Along a run: what is in the queue at first and what is added is what is dequeued and
what is in the queue at last. -/
theorem exec_queue {threadNum : Nat} {steps : List (PoolStep Task)} {s s' : ThreadPool Task}
    {outs : List (Option Task)}
    (h : (threadPool threadNum).exec s steps = some (s', outs)) :
    s.tasksQueue ++ added steps = dequeued outs ++ s'.tasksQueue := by
  induction steps generalizing s outs with
  | nil =>
      cases h
      exact List.append_nil _
  | cons step steps ih =>
      obtain ⟨t, out, outs', hstep, hrest, rfl⟩ := Machine.exec_cons_eq_some.mp h
      have hone := poolStep_queue hstep
      have hmore := ih hrest
      have hadded : added (step :: steps) = step.added.toList ++ added steps := by
        cases hs : step.added <;> simp [added, hs]
      have hdequeued : dequeued (out :: outs') = out.toList ++ dequeued outs' := by
        cases out <;> simp [dequeued]
      rw [hadded, hdequeued, ← List.append_assoc, hone, List.append_assoc, hmore,
        List.append_assoc]

/-! ## §3  No worker sleeps over a task -/

/-- Before the pool is closed, a worker is awake or every task in the queue still has its
`notify_one` to come. -/
structure Served (s : ThreadPool Task) : Prop where
  some_worker : s.workers ≠ []
  none_returned : s.isClose = false → Worker.returned ∉ s.workers
  awake : s.isClose = false →
    (∃ w ∈ s.workers, w.isAwake) ∨ s.tasksQueue.length ≤ s.notifies

theorem Served.new {threadNum : Nat} (h : 1 ≤ threadNum) :
    Served (new threadNum : ThreadPool Task) := by
  have hpos : (if threadNum > 32 then 32 else threadNum) ≠ 0 := by
    split <;> omega
  refine ⟨?_, ?_, fun _ => Or.inr (Nat.zero_le 0)⟩
  · intro hnil
    exact hpos ((List.replicate_eq_nil_iff _).mp hnil)
  · intro _ hmem
    cases List.eq_of_mem_replicate hmem

theorem setWorker_ne_nil {s : ThreadPool Task} (h : s.workers ≠ []) (i : Nat)
    (w : Worker Task) : (s.setWorker i w).workers ≠ [] :=
  fun hnil => h ((List.set_eq_nil_iff i w).mp hnil)

theorem not_returned_setWorker {s : ThreadPool Task} (h : Worker.returned ∉ s.workers) (i : Nat)
    {w : Worker Task} (hw : w ≠ .returned) : Worker.returned ∉ (s.setWorker i w).workers := by
  intro hmem
  rcases List.mem_or_eq_of_mem_set hmem with hmem | heq
  · exact h hmem
  · exact hw heq.symm

/-- A worker that is set to be awake is one that will look at the queue, so nothing is
asked of the count. -/
theorem Served.setAwake {s t : ThreadPool Task} (h : Served s) {i : Nat} {old w : Worker Task}
    (hi : s.workers[i]? = some old) (hw : w.isAwake) (hworkers : t.workers = s.workers)
    (hclose : t.isClose = s.isClose) : Served (t.setWorker i w) := by
  have hlt : i < t.workers.length := by
    rw [hworkers]
    exact (List.getElem?_eq_some_iff.mp hi).1
  refine ⟨setWorker_ne_nil (hworkers ▸ h.some_worker) i w, ?_, ?_⟩
  · intro hopen
    apply not_returned_setWorker (hworkers ▸ h.none_returned (hclose ▸ hopen))
    rintro rfl
    cases hw
  · intro _
    exact Or.inl ⟨w, List.mem_set hlt w, hw⟩

/-- Where no worker waits, some worker is awake. -/
theorem Served.awake_of_none_waiting {s : ThreadPool Task} (h : Served s)
    (hopen : s.isClose = false) (hnone : s.workers.any Worker.isWaiting = false) :
    ∃ w ∈ s.workers, w.isAwake := by
  obtain ⟨w, hw⟩ := List.exists_mem_of_ne_nil _ h.some_worker
  have hnot := List.any_eq_false.mp hnone w hw
  refine ⟨w, hw, ?_⟩
  cases w with
  | locking => rfl
  | waiting => exact absurd rfl hnot
  | running task => rfl
  | returned => exact absurd hw (h.none_returned hopen)

theorem Served.loop {s : ThreadPool Task} (h : Served s) {i : Nat} {old : Worker Task}
    (hi : s.workers[i]? = some old) : Served (s.loop i).1 := by
  unfold ThreadPool.loop
  split
  · -- the pool is closed: nothing is said of it but that it has workers
    rename_i hclose
    have hnot : (s.setWorker i .returned).isClose ≠ false := by
      intro hopen
      exact Bool.noConfusion (hclose.symm.trans hopen)
    exact ⟨setWorker_ne_nil h.some_worker i _, fun hopen => absurd hopen hnot,
      fun hopen => absurd hopen hnot⟩
  · split
    · exact h.setAwake hi rfl rfl rfl
    · rename_i hqueue
      refine ⟨setWorker_ne_nil h.some_worker i _, fun hopen => ?_, fun _ => ?_⟩
      · apply not_returned_setWorker (h.none_returned hopen) i
        intro heq
        cases heq
      · -- it goes to sleep, but over an empty queue
        right
        change s.tasksQueue.length ≤ s.notifies
        rw [hqueue]
        exact Nat.zero_le _

theorem Served.notifyOne {s s' : ThreadPool Task} (h : Served s) {woken : Option Nat}
    (hstep : s.notifyOne woken = some s') : Served s' := by
  unfold ThreadPool.notifyOne at hstep
  split at hstep
  · cases hstep
  · split at hstep
    · split at hstep
      · cases hstep
      · rename_i hnone
        cases hstep
        refine ⟨h.some_worker, h.none_returned, fun hopen => Or.inl ?_⟩
        exact h.awake_of_none_waiting hopen (Bool.eq_false_iff.mpr hnone)
    · split at hstep
      · rename_i hi
        cases hstep
        exact h.setAwake hi rfl rfl rfl
      · cases hstep

theorem Served.poolStep {s s' : ThreadPool Task} (h : Served s) {step : PoolStep Task}
    {out : Option Task} (hstep : s.poolStep step = some (s', out)) : Served s' := by
  cases step with
  | push task =>
      cases hstep
      refine ⟨h.some_worker, h.none_returned, fun hopen => ?_⟩
      rcases h.awake hopen with hawake | hle
      · exact Or.inl hawake
      · -- a push owes one more notification
        right
        change (s.tasksQueue ++ [task]).length ≤ s.notifies + 1
        rw [List.length_append, List.length_singleton]
        exact Nat.add_le_add_right hle 1
  | notifyOne woken =>
      obtain ⟨t, hnotify, ht⟩ := Option.map_eq_some_iff.mp hstep
      cases ht
      exact h.notifyOne hnotify
  | lock i =>
      simp only [ThreadPool.poolStep] at hstep
      split at hstep
      · rename_i hi
        have hs' : (s.loop i).1 = s' := congrArg Prod.fst (Option.some.inj hstep)
        rw [← hs']
        exact h.loop hi
      · cases hstep
  | wake i =>
      simp only [ThreadPool.poolStep] at hstep
      split at hstep
      · rename_i hi
        cases hstep
        exact h.setAwake hi rfl rfl rfl
      · cases hstep
  | finish i =>
      simp only [ThreadPool.poolStep] at hstep
      split at hstep
      · rename_i hi
        cases hstep
        exact h.setAwake hi rfl rfl rfl
      · cases hstep
  | close =>
      cases hstep
      refine ⟨fun hnil => h.some_worker (List.map_eq_nil_iff.mp hnil), ?_, ?_⟩ <;>
      · intro hopen
        cases hopen

/-- **No task is lost or repeated by the pool.** In every run of a pool with workers, the
tasks added are those dequeued, in their order and each once, and behind them those still
in the queue; and until the pool is closed no task is in the queue while every worker
waits and no `notify_one` is to come. -/
theorem threadPool_lossless {threadNum : Nat} (hthreads : 1 ≤ threadNum)
    {steps : List (PoolStep Task)} {s : ThreadPool Task} {outs : List (Option Task)}
    (hrun : (threadPool threadNum).run steps = some (s, outs)) (hopen : s.isClose = false) :
    added steps = dequeued outs ++ s.tasksQueue ∧
      ¬ (s.tasksQueue ≠ [] ∧ (∀ w ∈ s.workers, w = .waiting) ∧ s.notifies = 0) := by
  refine ⟨?_, ?_⟩
  · rw [← exec_queue hrun]
    rfl
  · rintro ⟨hqueue, hwaiting, hnotifies⟩
    have hserved : Served s := Machine.run_invariant (Served.new hthreads)
      (fun _ _ _ _ h hstep => h.poolStep hstep) hrun
    rcases hserved.awake hopen with ⟨w, hw, hawake⟩ | hle
    · rw [hwaiting w hw] at hawake
      cases hawake
    · rw [hnotifies] at hle
      exact hqueue (List.length_eq_zero_iff.mp (Nat.le_zero.mp hle))

/-- Two workers: the first `notify_one` finds nobody waiting, the second wakes worker 1,
and worker 0 is back before it and takes the task. -/
theorem threadPool_lossless_two :
    ∃ (s : ThreadPool Nat) (outs : List (Option Nat)),
      (threadPool 2).run [.push 7, .lock 0, .lock 1, .wake 1, .notifyOne none, .lock 1, .push 8,
        .notifyOne (some 1), .finish 0, .lock 0, .lock 1] = some (s, outs) ∧
      dequeued outs = [7, 8] ∧
      added [.push 7, .lock 0, .lock 1, .wake 1, .notifyOne none, .lock 1, .push 8,
        .notifyOne (some 1), .finish 0, .lock 0, .lock 1] = dequeued outs ++ s.tasksQueue ∧
      ¬ (s.tasksQueue ≠ [] ∧ (∀ w ∈ s.workers, w = .waiting) ∧ s.notifies = 0) := by
  refine ⟨_, _, rfl, rfl, ?_⟩
  exact @threadPool_lossless Nat 2 (by decide) [.push 7, .lock 0, .lock 1, .wake 1,
    .notifyOne none, .lock 1, .push 8, .notifyOne (some 1), .finish 0, .lock 0, .lock 1] _ _
    rfl rfl

end ThreadPool

end WhiteWebServer
