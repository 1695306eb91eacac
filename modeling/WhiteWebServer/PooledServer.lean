import WhiteWebServer.Clients
import WhiteWebServer.Ownership
import WhiteWebServer.ThreadPool

/-!
# The server with its thread pool

`HttpServer` where `AddTask` puts tasks into the queue of `ThreadPool` and a worker that
has taken one runs it. Each handler of the event loop and each task is one atomic step: what
a task does behind the re-arming in it is not told apart from it. §1 the two together; §2 the
server does not look at its tasks; §3 what the two do, the server does that takes tasks in any
order; §4 each connection is in one hand; §5 the answers of a connection.
-/

namespace WhiteWebServer

open HttpConn HttpResponse

variable {J : Type}

/-! ## §1  The two together -/

/-- `server.tasks` is what the step under way has given to `AddTask`; between two steps
the tasks are in the pool. -/
structure PooledServer (J : Type) where
  server : HttpServer J
  pool : ThreadPool Task

/-- A step of the event loop's thread or of the clock, the `notify_one` of an `AddTask`, or
a step of worker `i`; `finish` is the task it runs, up to its return. -/
inductive PooledStep
  | main (step : HttpServer.ServerStep)
  | notifyOne (woken : Option Nat)
  | lock (i : Nat)
  | wake (i : Nat)
  | finish (i : Nat) (w : TaskWorld)

namespace HttpServer

def withTasks (tasks : List Task) (s : HttpServer J) : HttpServer J := { s with tasks := tasks }

/-- The call of `OnRead` or `OnWrite` that a task is. -/
def runs (cfg : ServerConfig J) (task : Task) (w : TaskWorld) (s : HttpServer J) :
    Option (HttpServer J) :=
  match task.kind with
  | .onRead => s.onRead cfg w task.user
  | .onWrite => s.onWrite cfg w task.user task.inProxy

end HttpServer

/-- The task it runs. -/
def Worker.task : Worker Task → Option Task
  | .running task => some task
  | _ => none

def ThreadPool.taskOf (i : Nat) (s : ThreadPool Task) : Option Task :=
  s.workers[i]?.bind Worker.task

/-- The tasks that workers run. -/
def ThreadPool.running (s : ThreadPool Task) : List Task := s.workers.filterMap Worker.task

/-- `AddTask` for one task after the other, without the notifications. -/
def ThreadPool.pushAll (tasks : List Task) (s : ThreadPool Task) : ThreadPool Task :=
  tasks.foldl (fun pool task => pool.push task) s

namespace PooledServer

def new (threadNum : Nat) : PooledServer J := ⟨.new, .new threadNum⟩

def finish (cfg : ServerConfig J) (i : Nat) (w : TaskWorld) (s : PooledServer J) :
    Option (PooledServer J) :=
  match s.pool.taskOf i with
  | some task =>
      (s.server.runs cfg task w).map fun server => ⟨server, s.pool.setWorker i .locking⟩
  | none => none

def main (cfg : ServerConfig J) (step : HttpServer.ServerStep) (s : PooledServer J) :
    Option (PooledServer J) :=
  (s.server.serverStep cfg step).map fun server =>
    ⟨server.withTasks [], s.pool.pushAll server.tasks⟩

def poolStep (step : ThreadPool.PoolStep Task) (s : PooledServer J) : Option (PooledServer J) :=
  (s.pool.poolStep step).map fun r => { s with pool := r.1 }

def pooledStep (cfg : ServerConfig J) (s : PooledServer J) : PooledStep → Option (PooledServer J)
  | .main step => s.main cfg step
  | .notifyOne woken => s.poolStep (.notifyOne woken)
  | .lock i => s.poolStep (.lock i)
  | .wake i => s.poolStep (.wake i)
  | .finish i w => s.finish cfg i w

def pooled (cfg : ServerConfig J) (threadNum : Nat) :
    Machine (PooledServer J) PooledStep Unit where
  init := new threadNum
  step s step := (s.pooledStep cfg step).map (·, ())

end PooledServer

/-! ## §2  The server does not look at its tasks -/

namespace HttpServer

variable {cfg : ServerConfig J} {s s' : HttpServer J} {fd : Int} {client : HttpConn J}
  {tasks : List Task}

theorem userAt_withTasks : (s.withTasks tasks).userAt cfg fd =
    (s.userAt cfg fd).map fun r => (r.1, r.2.withTasks tasks) := by
  unfold userAt
  rw [show (s.withTasks tasks).users fd = s.users fd from rfl]
  cases s.users fd with
  | some client => rfl
  | none =>
      cases HttpConn.new cfg.js (cfg.junk fd) with
      | error e => rfl
      | ok client => rfl

theorem closeClient_withTasks : (s.withTasks tasks).closeClient cfg fd client =
    (s.closeClient cfg fd client).map (withTasks tasks) := by
  unfold closeClient
  cases client.close cfg.js with
  | error e => rfl
  | ok closed =>
      dsimp only
      split
      · rfl
      · split <;> rfl

theorem closeConn_withTasks : (s.withTasks tasks).closeConn cfg fd =
    (s.closeConn cfg fd).map (withTasks tasks) := by
  unfold closeConn
  rw [userAt_withTasks]
  cases s.userAt cfg fd with
  | none => rfl
  | some r =>
      simp only [Option.map_some, bind, Option.bind, ← closeClient_withTasks]
      split <;> rfl

theorem onProcessStatic_withTasks {w : TaskWorld} :
    (s.withTasks tasks).onProcessStatic cfg w fd client =
      (s.onProcessStatic cfg w fd client).map (withTasks tasks) := by
  unfold onProcessStatic
  split <;> rfl

theorem onProcessProxy_withTasks {w : TaskWorld} :
    (s.withTasks tasks).onProcessProxy cfg w fd client =
      (s.onProcessProxy cfg w fd client).map (withTasks tasks) := by
  unfold onProcessProxy
  split <;> rfl

theorem onRead_withTasks {w : TaskWorld} : (s.withTasks tasks).onRead cfg w fd =
    (s.onRead cfg w fd).map (withTasks tasks) := by
  unfold onRead
  rw [userAt_withTasks]
  cases s.userAt cfg fd with
  | none => rfl
  | some r =>
      simp only [Option.map_some, bind, Option.bind]
      split
      · exact closeConn_withTasks (s := r.2.setUser fd (r.1.readFromFd w.reads))
      · split
        · exact onProcessProxy_withTasks
        · exact onProcessStatic_withTasks

theorem extentTime_withTasks : (s.withTasks tasks).extentTime cfg client =
    (s.extentTime cfg client).withTasks tasks := by
  unfold extentTime
  split <;> rfl

theorem onWritten_withTasks {inProxy : Bool} {write : HttpConn.WriteEnd} :
    (s.withTasks tasks).onWritten cfg fd inProxy write client =
      (s.onWritten cfg fd inProxy write client).map (withTasks tasks) := by
  unfold onWritten
  rw [extentTime_withTasks]
  split
  · rfl
  · split
    · rfl
    · split
      · split <;> rfl
      · split
        · rfl
        · exact closeConn_withTasks

theorem onWrite_withTasks {w : TaskWorld} {inProxy : Bool} :
    (s.withTasks tasks).onWrite cfg w fd inProxy =
      (s.onWrite cfg w fd inProxy).map (withTasks tasks) := by
  unfold onWrite
  rw [userAt_withTasks]
  cases s.userAt cfg fd with
  | none => rfl
  | some r =>
      obtain ⟨client, s₁⟩ := r
      obtain ⟨⟨write, client'⟩, hwrite⟩ : ∃ r, client.writeToFd w.last w.counts = r := ⟨_, rfl⟩
      rw [Option.map_some, Option.bind_eq_bind, Option.bind_some, Option.bind_some]
      dsimp only
      rw [hwrite]
      exact onWritten_withTasks (s := s₁.setUser fd client')

theorem runs_withTasks {w : TaskWorld} {task : Task} : (s.withTasks tasks).runs cfg task w =
    (s.runs cfg task w).map (withTasks tasks) := by
  unfold runs
  cases task.kind with
  | onRead => exact onRead_withTasks
  | onWrite => exact onWrite_withTasks

theorem addTimer_withTasks : (s.withTasks tasks).addTimer cfg fd =
    (s.addTimer cfg fd).withTasks tasks := by
  unfold addTimer
  split <;> rfl

theorem emplaceProxy_withTasks {proxyFd : Int} : (s.withTasks tasks).emplaceProxy proxyFd fd =
    (s.emplaceProxy proxyFd fd).withTasks tasks := by
  unfold emplaceProxy
  rw [show (s.withTasks tasks).proxyFdMap = s.proxyFdMap from rfl]
  split <;> rfl

/-- `AddClient` behind `Init`. -/
theorem enters_withTasks {t : HttpServer J} {proxyFd : Int} :
    (if proxyFd ≠ -1 then ((((t.withTasks tasks).addTimer cfg fd).watch fd
        connEventIn).emplaceProxy proxyFd fd).watch proxyFd connEventIn
      else ((t.withTasks tasks).addTimer cfg fd).watch fd connEventIn) =
    (if proxyFd ≠ -1 then (((t.addTimer cfg fd).watch fd connEventIn).emplaceProxy proxyFd
        fd).watch proxyFd connEventIn
      else (t.addTimer cfg fd).watch fd connEventIn).withTasks tasks := by
  rw [addTimer_withTasks]
  split
  · exact congrArg (HttpServer.watch proxyFd connEventIn)
      (emplaceProxy_withTasks (s := (t.addTimer cfg fd).watch fd connEventIn))
  · rfl

theorem addClient_withTasks {addr : SockAddr} {proxyFd : Int} :
    (s.withTasks tasks).addClient cfg fd addr proxyFd =
      (s.addClient cfg fd addr proxyFd).map (withTasks tasks) := by
  unfold addClient
  rw [userAt_withTasks]
  cases s.userAt cfg fd with
  | none => rfl
  | some r =>
      obtain ⟨client, s₁⟩ := r
      simp only [Option.map_some, bind, Option.bind]
      exact congrArg some (enters_withTasks (t :=
        ({ s₁.setUser fd (client.init fd addr proxyFd cfg.indexFile) with
          userCount := s₁.userCount + 1 }.give fd fd).give proxyFd fd))

theorem getNewProxyFd_withTasks {connect : Connect} : (s.withTasks tasks).getNewProxyFd connect =
    (s.getNewProxyFd connect).map fun r => (r.1, r.2.withTasks tasks) := by
  cases connect with
  | noSocket => rfl
  | refused fd =>
      simp only [getNewProxyFd, show (s.withTasks tasks).openFds fd = s.openFds fd from rfl]
      split <;> rfl
  | connected fd =>
      simp only [getNewProxyFd, show (s.withTasks tasks).openFds fd = s.openFds fd from rfl]
      split <;> rfl

theorem dealListen_withTasks : ∀ (accepts : List Accept) {s : HttpServer J},
    dealListen cfg accepts (s.withTasks tasks) =
      (dealListen cfg accepts s).map (withTasks tasks)
  | [], _ => rfl
  | a :: rest, s => by
      rw [dealListen, dealListen]
      rw [show (s.withTasks tasks).openFds a.fd = s.openFds a.fd from rfl]
      split
      · rfl
      · split
        · rfl
        · have hopened : (s.withTasks tasks).openFd a.fd = (s.openFd a.fd).withTasks tasks := rfl
          rw [hopened]
          dsimp only
          rw [show ((s.openFd a.fd).withTasks tasks).userCount = (s.openFd a.fd).userCount from rfl]
          split
          · rfl
          · split
            · -- the backend is connected first
              rw [getNewProxyFd_withTasks]
              cases (s.openFd a.fd).getNewProxyFd a.connect with
              | none => rfl
              | some r =>
                  obtain ⟨proxyFd, s₁⟩ := r
                  simp only [Option.map_some, bind, Option.bind]
                  split
                  · exact dealListen_withTasks rest
                  · rw [addClient_withTasks]
                    cases s₁.addClient cfg a.fd a.addr proxyFd with
                    | none => rfl
                    | some s₂ => exact dealListen_withTasks rest
            · rw [addClient_withTasks]
              cases (s.openFd a.fd).addClient cfg a.fd a.addr (-1) with
              | none => rfl
              | some s₂ => exact dealListen_withTasks rest

theorem proxyAt_withTasks : (s.withTasks tasks).proxyAt fd =
    ((s.proxyAt fd).1, (s.proxyAt fd).2.withTasks tasks) := by
  unfold proxyAt
  rw [show (s.withTasks tasks).proxyFdMap = s.proxyFdMap from rfl]
  split <;> rfl

theorem reconnect_withTasks : ∀ (connects : List Connect) (retryCount : Nat) {s : HttpServer J},
    (s.withTasks tasks).reconnect cfg fd retryCount connects =
      (s.reconnect cfg fd retryCount connects).map fun r => (r.1, r.2.withTasks tasks)
  | [], _, _ => rfl
  | connect :: rest, retryCount, s => by
      rw [reconnect, reconnect, getNewProxyFd_withTasks]
      cases s.getNewProxyFd connect with
      | none => rfl
      | some r =>
          obtain ⟨newProxyFd, s₁⟩ := r
          simp only [Option.map_some, bind, Option.bind]
          split
          · split
            · rw [proxyAt_withTasks]
              dsimp only
              rw [closeConn_withTasks]
              cases (s₁.proxyAt fd).2.closeConn cfg (s₁.proxyAt fd).1 with
              | none => rfl
              | some s₂ => exact reconnect_withTasks rest (retryCount + 1)
            · exact reconnect_withTasks rest (retryCount + 1)
          · rfl

theorem dealDisconnect_withTasks {connects : List Connect} :
    (s.withTasks tasks).dealDisconnect cfg connects fd =
      (s.dealDisconnect cfg connects fd).map (withTasks tasks) := by
  unfold dealDisconnect
  rw [show (s.withTasks tasks).proxyFdMap = s.proxyFdMap from rfl]
  split
  · rw [reconnect_withTasks]
    cases s.reconnect cfg fd 0 connects with
    | none => rfl
    | some r =>
        obtain ⟨newProxyFd, s₁⟩ := r
        simp only [Option.map_some, bind, Option.bind]
        rw [proxyAt_withTasks]
        dsimp only
        obtain ⟨s₂, hs₂⟩ : ∃ s₂, s₂ = (s₁.closeFd (.conn (s₁.proxyAt fd).1) fd).delFd fd := ⟨_, rfl⟩
        have hclosed : ((s₁.withTasks tasks).closeFd (.conn (s₁.proxyAt fd).1) fd).delFd fd =
            s₂.withTasks tasks := by
          rw [hs₂]
          rfl
        rw [hclosed, ← hs₂, proxyAt_withTasks]
        dsimp only
        rw [userAt_withTasks]
        cases (s₂.proxyAt fd).2.userAt cfg (s₂.proxyAt fd).1 with
        | none => rfl
        | some r =>
            obtain ⟨client, s₃⟩ := r
            exact congrArg (fun s => some (s.watch newProxyFd EPOLLIN))
              (emplaceProxy_withTasks (s := ((s₃.setUser (s₂.proxyAt fd).1
                (client.resetProxyFd newProxyFd)).give newProxyFd
                  (s₂.proxyAt fd).1).eraseProxy fd))
  · exact closeConn_withTasks

/-- A task is put behind those that are there. -/
theorem dealTask_withTasks {kind : TaskKind} (hnone : s.tasks = [])
    (h : s.dealTask cfg kind fd = some s') :
    (s.withTasks tasks).dealTask cfg kind fd = some (s'.withTasks (tasks ++ s'.tasks)) := by
  unfold dealTask at h ⊢
  rw [show (s.withTasks tasks).proxyFdMap = s.proxyFdMap from rfl]
  split at h
  obtain ⟨⟨client, s₁⟩, hat, h⟩ := Option.bind_eq_some_iff.mp h
  have htasks : (s₁.extentTime cfg client).tasks = [] := by
    rw [extentTime_eq]
    exact (userAt_registry hat).2.2.2.2.1.trans hnone
  cases h
  rw [userAt_withTasks, hat, Option.map_some, Option.bind_eq_bind, Option.bind_some]
  dsimp only
  rw [extentTime_withTasks, htasks]
  rfl

/-- What does not touch the tasks leaves none where there was none. -/
theorem tasks_kept {f : HttpServer J → Option (HttpServer J)}
    (hf : ∀ (tasks : List Task) (s : HttpServer J),
      f (s.withTasks tasks) = (f s).map (withTasks tasks)) (hnone : s.tasks = [])
    (h : f s = some s') : s'.tasks = [] := by
  have hs : s.withTasks [] = s := by
    rw [← hnone]
    rfl
  have hkept := hf [] s
  rw [hs, h, Option.map_some, Option.some.injEq] at hkept
  rw [hkept]
  rfl

theorem tasks_of_withTasks {f : HttpServer J → Option (HttpServer J)}
    (hf : ∀ (tasks : List Task) (s : HttpServer J),
      f (s.withTasks tasks) = (f s).map (withTasks tasks)) (hnone : s.tasks = [])
    (h : f s = some s') : f (s.withTasks tasks) = some (s'.withTasks (tasks ++ s'.tasks)) := by
  rw [hf, h, Option.map_some, tasks_kept hf hnone h, List.append_nil]

theorem handle_withTasks {connects : List Connect} (hnone : s.tasks = [])
    (h : s.handle cfg connects = some s') :
    (s.withTasks tasks).handle cfg connects = some (s'.withTasks (tasks ++ s'.tasks)) := by
  unfold handle at h ⊢
  rw [show (s.withTasks tasks).delivered = s.delivered from rfl]
  split at h
  · cases h
  · rename_i fd events rest hdelivered
    obtain ⟨s₁, hs₁⟩ : ∃ s₁ : HttpServer J, s₁ = { s with delivered := rest } := ⟨_, rfl⟩
    have hnone₁ : s₁.tasks = [] := by rw [hs₁, ← hnone]
    have hwith : { s.withTasks tasks with delivered := rest } = s₁.withTasks tasks := by
      rw [hs₁]
      rfl
    dsimp only at h ⊢
    rw [← hs₁] at h
    rw [hwith]
    split
    · rename_i hhup
      rw [if_pos hhup] at h
      exact tasks_of_withTasks (fun _ _ => dealDisconnect_withTasks) hnone₁ h
    · rename_i hhup
      rw [if_neg hhup] at h
      split
      · rename_i hin
        rw [if_pos hin] at h
        exact dealTask_withTasks hnone₁ h
      · rename_i hin
        rw [if_neg hin] at h
        split
        · rename_i hout
          rw [if_pos hout] at h
          exact dealTask_withTasks hnone₁ h
        · rename_i hout
          rw [if_neg hout] at h
          cases h
          rw [hnone₁, List.append_nil]

theorem expire_withTasks : (s.withTasks tasks).expire cfg fd =
    (s.expire cfg fd).map (withTasks tasks) := by
  unfold expire
  rw [show (s.withTasks tasks).timer = s.timer from rfl]
  split
  · rfl
  · rename_i deadline user _
    rw [show (s.withTasks tasks).now = s.now from rfl,
      show (s.withTasks tasks).delivered = s.delivered from rfl]
    split
    · rw [closeConn_withTasks]
      cases s.closeConn cfg user <;> rfl
    · rfl

theorem deliver_withTasks {events : EpollEvents} : (s.withTasks tasks).deliver fd events =
    (s.deliver fd events).map (withTasks tasks) := by
  unfold deliver
  rw [show (s.withTasks tasks).epoll = s.epoll from rfl,
    show (s.withTasks tasks).delivered = s.delivered from rfl]
  split
  · rfl
  · split <;> rfl

/-- What a step of the event loop does does not depend on the tasks, and the tasks it makes come
behind them. -/
theorem serverStep_withTasks {step : ServerStep} (hnone : s.tasks = [])
    (h : s.serverStep cfg step = some s') :
    (s.withTasks tasks).serverStep cfg step = some (s'.withTasks (tasks ++ s'.tasks)) := by
  cases step with
  | listen accepts =>
      exact tasks_of_withTasks (f := dealListen cfg accepts) (fun _ _ => dealListen_withTasks _)
        hnone h
  | deliver fd events =>
      exact tasks_of_withTasks (f := deliver fd events) (fun _ _ => deliver_withTasks) hnone h
  | handle connects => exact handle_withTasks hnone h
  | run index w =>
      -- there is no task to run
      rw [serverStep, runTask, hnone] at h
      cases h
  | elapse ms =>
      cases h
      rw [serverStep, show s.tasks = [] from hnone, List.append_nil]
      rfl
  | expire fd =>
      exact tasks_of_withTasks (f := fun s => expire cfg fd s) (fun _ _ => expire_withTasks) hnone h

end HttpServer

/-! ## §3  Any order of the tasks -/

namespace ThreadPool

variable {s s' : ThreadPool Task} {i : Nat} {old w : Worker Task}

theorem taskOf_eq_some {task : Task} (h : s.taskOf i = some task) :
    s.workers[i]? = some (.running task) := by
  obtain ⟨w, hi, hw⟩ := Option.bind_eq_some_iff.mp h
  cases w with
  | running task' =>
      obtain rfl : task' = task := Option.some.inj hw
      exact hi
  | _ => cases hw

/-- One worker takes its task away and brings another one. -/
theorem running_setWorker (hi : s.workers[i]? = some old) :
    (old.task.toList ++ (s.setWorker i w).running).Perm (w.task.toList ++ s.running) := by
  obtain ⟨hlt, hold⟩ := List.getElem?_eq_some_iff.mp hi
  have hset : s.workers.set i w = s.workers.take i ++ w :: s.workers.drop (i + 1) :=
    List.set_eq_take_append_cons_drop.trans (if_pos hlt)
  have hsplit : s.workers = s.workers.take i ++ old :: s.workers.drop (i + 1) := by
    rw [← hold, ← List.drop_eq_getElem_cons hlt, List.take_append_drop]
  have hsum : ∀ w : Worker Task, (s.workers.take i ++ w :: s.workers.drop (i + 1)).filterMap
      Worker.task = (s.workers.take i).filterMap Worker.task ++
        (w.task.toList ++ (s.workers.drop (i + 1)).filterMap Worker.task) := by
    intro w
    rw [List.filterMap_append, List.filterMap_cons]
    cases w.task <;> rfl
  have hnew : (s.setWorker i w).running = _ := (congrArg _ hset).trans (hsum w)
  have hwas : s.running = _ := (congrArg _ hsplit).trans (hsum old)
  rw [hnew, hwas]
  apply List.perm_iff_count.mpr
  intro task
  simp only [List.count_append]
  omega

theorem pushAll_eq (tasks : List Task) (s : ThreadPool Task) : s.pushAll tasks =
    { s with tasksQueue := s.tasksQueue ++ tasks, notifies := s.notifies + tasks.length } := by
  induction tasks generalizing s with
  | nil =>
      show s = ThreadPool.mk s.isClose (s.tasksQueue ++ []) s.workers (s.notifies + 0)
      rw [List.append_nil, Nat.add_zero]
  | cons task tasks ih =>
      refine (ih (s.push task)).trans ?_
      simp only [push, List.append_assoc, List.singleton_append, List.length_cons, Nat.add_assoc,
        Nat.add_comm 1]

theorem Served.pushAll (h : s.Served) (tasks : List Task) : (s.pushAll tasks).Served := by
  induction tasks generalizing s with
  | nil => exact h
  | cons task tasks ih =>
      have hpush : s.poolStep (.push task) = some (s.push task, none) := rfl
      exact ih (h.poolStep hpush)

/-- No task comes or goes in it. -/
def PoolStep.moves : PoolStep Task → Bool
  | .notifyOne _ => true
  | .lock _ => true
  | .wake _ => true
  | _ => false

theorem poolStep_perm {step : PoolStep Task} {out : Option Task} (hmoves : step.moves = true)
    (h : s.poolStep step = some (s', out)) :
    (s'.running ++ s'.tasksQueue).Perm (s.running ++ s.tasksQueue) := by
  cases step with
  | push task => cases hmoves
  | finish i => cases hmoves
  | close => cases hmoves
  | notifyOne woken =>
      obtain ⟨t, hnotify, ht⟩ := Option.map_eq_some_iff.mp h
      cases ht
      unfold notifyOne at hnotify
      split at hnotify
      · cases hnotify
      · split at hnotify
        · split at hnotify <;> cases hnotify
          exact List.Perm.refl _
        · split at hnotify <;> cases hnotify
          rename_i hi
          exact List.Perm.append_right _ (running_setWorker (s := s) hi)
  | wake i =>
      simp only [poolStep] at h
      split at h <;> cases h
      rename_i hi
      exact List.Perm.append_right _ (running_setWorker hi)
  | lock i =>
      simp only [poolStep] at h
      split at h
      · rename_i hi
        simp only [Option.some.injEq, loop] at h
        split at h
        · cases h
          exact List.Perm.append_right _ (running_setWorker hi)
        · split at h
          · rename_i task tasks hqueue
            cases h
            rw [hqueue]
            have hmoved := @running_setWorker { s with tasksQueue := tasks } i _ (.running task) hi
            exact (hmoved.append_right tasks).trans List.perm_middle.symm
          · rename_i hqueue
            cases h
            exact List.Perm.append_right _ (running_setWorker hi)
      · cases h

theorem poolStep_isClose {step : PoolStep Task} {out : Option Task} (hmoves : step.moves = true)
    (h : s.poolStep step = some (s', out)) : s'.isClose = s.isClose := by
  cases step with
  | push task => cases hmoves
  | finish i => cases hmoves
  | close => cases hmoves
  | notifyOne woken =>
      obtain ⟨t, hnotify, ht⟩ := Option.map_eq_some_iff.mp h
      cases ht
      unfold notifyOne at hnotify
      split at hnotify
      · cases hnotify
      · split at hnotify <;> split at hnotify <;> cases hnotify <;> rfl
  | wake i =>
      simp only [poolStep] at h
      split at h <;> cases h
      rfl
  | lock i =>
      simp only [poolStep] at h
      split at h
      · simp only [Option.some.injEq, loop] at h
        split at h
        · cases h
          rfl
        · split at h <;> cases h <;> rfl
      · cases h

end ThreadPool

namespace PooledServer

open HttpServer (ServerStep)

variable {cfg : ServerConfig J} {s s' : PooledServer J} {a : HttpServer J} {threadNum : Nat}
  {steps : List PooledStep} {os : List Unit} {fd : Int}

/-- The server `a` has the tasks of the pool, queued and running, in some order. -/
structure Refines (s : PooledServer J) (a : HttpServer J) : Prop where
  none : s.server.tasks = []
  server : a = s.server.withTasks a.tasks
  tasks : a.tasks.Perm (s.pool.running ++ s.pool.tasksQueue)

/-- The steps of `a` that a step of `s` is. -/
inductive Shows (s : PooledServer J) (a : HttpServer J) : PooledStep → List ServerStep → Prop
  | main (step : ServerStep) : (∀ index w, step ≠ .run index w) → Shows s a (.main step) [step]
  | notifyOne (woken : Option Nat) : Shows s a (.notifyOne woken) []
  | lock (i : Nat) : Shows s a (.lock i) []
  | wake (i : Nat) : Shows s a (.wake i) []
  | finish (i index : Nat) (w : TaskWorld) (task : Task) :
      s.pool.taskOf i = some task → a.tasks[index]? = some task →
        Shows s a (.finish i w) [.run index w]

theorem Refines.pool (h : Refines s a) {step : ThreadPool.PoolStep Task}
    (hmoves : step.moves = true) (hstep : s.poolStep step = some s') : Refines s' a := by
  obtain ⟨⟨pool, out⟩, hpool, rfl⟩ := Option.map_eq_some_iff.mp hstep
  exact ⟨h.none, h.server,
    h.tasks.trans (ThreadPool.poolStep_perm hmoves hpool).symm⟩

theorem Refines.main (h : Refines s a) {step : ServerStep} (hstep : s.main cfg step = some s') :
    ∃ a', a.serverStep cfg step = some a' ∧ Refines s' a' := by
  obtain ⟨server, hserver, rfl⟩ := Option.map_eq_some_iff.mp hstep
  refine ⟨server.withTasks (a.tasks ++ server.tasks), ?_, rfl, rfl, ?_⟩
  · rw [h.server]
    exact HttpServer.serverStep_withTasks h.none hserver
  · rw [ThreadPool.pushAll_eq, ← List.append_assoc]
    exact h.tasks.append_right server.tasks

/-- The task of a worker is one of `a`'s. -/
theorem Refines.finish (h : Refines s a) {i : Nat} {w : TaskWorld}
    (hstep : s.finish cfg i w = some s') :
    ∃ index task a', s.pool.taskOf i = some task ∧
      a.tasks[index]? = some task ∧ a.serverStep cfg (.run index w) = some a' ∧ Refines s' a' := by
  unfold PooledServer.finish at hstep
  split at hstep
  · rename_i task htask
    have hi := ThreadPool.taskOf_eq_some htask
    obtain ⟨server, hserver, rfl⟩ := Option.map_eq_some_iff.mp hstep
    have hmoved := @ThreadPool.running_setWorker s.pool i _ .locking hi
    have hmem : task ∈ a.tasks := by
      apply h.tasks.mem_iff.mpr
      apply List.mem_append_left
      exact List.mem_filterMap.mpr ⟨_, List.mem_of_getElem? hi, rfl⟩
    obtain ⟨index, hlt, hget⟩ := List.getElem_of_mem hmem
    have hindex : a.tasks[index]? = some task := List.getElem?_eq_some_iff.mpr ⟨hlt, hget⟩
    refine ⟨index, task, server.withTasks (a.tasks.eraseIdx index), htask, hindex, ?_, ?_, rfl, ?_⟩
    · have herase : { a with tasks := a.tasks.eraseIdx index } =
          s.server.withTasks (a.tasks.eraseIdx index) := by
        conv_lhs => rw [h.server]
        rfl
      have hruns : (s.server.withTasks (a.tasks.eraseIdx index)).runs cfg task w =
          some (server.withTasks (a.tasks.eraseIdx index)) := by
        rw [HttpServer.runs_withTasks, hserver, Option.map_some]
      simp only [HttpServer.serverStep, HttpServer.runTask, hindex, herase]
      exact hruns
    · exact HttpServer.tasks_kept (f := fun s => s.runs cfg task w)
        (fun _ _ => HttpServer.runs_withTasks) h.none hserver
    · have hwas : (task :: a.tasks.eraseIdx index).Perm a.tasks := by
        rw [← hget]
        exact List.getElem_cons_eraseIdx_perm hlt
      have hnow := hmoved.append_right s.pool.tasksQueue
      exact List.Perm.cons_inv (hwas.trans (h.tasks.trans hnow.symm))
  · cases hstep

/-- A step of the two is one of the server, or none. -/
theorem Refines.step (h : Refines s a) {step : PooledStep}
    (hstep : s.pooledStep cfg step = some s') :
    ∃ ms a' os, (HttpServer.server cfg).exec a ms = some (a', os) ∧ Refines s' a' ∧
      Shows s a step ms := by
  have hone : ∀ {l : ServerStep} {a' : HttpServer J}, a.serverStep cfg l = some a' →
      (HttpServer.server cfg).exec a [l] = some (a', [()]) := fun hl =>
    Machine.exec_cons_eq_some.mpr ⟨_, (), [], HttpServer.server_step.mpr hl, rfl, rfl⟩
  cases step with
  | main step =>
      obtain ⟨a', ha', hrefines⟩ := h.main hstep
      refine ⟨[step], a', _, hone ha', hrefines, .main step ?_⟩
      rintro index w rfl
      -- there is no task to run
      obtain ⟨server, hserver, -⟩ := Option.map_eq_some_iff.mp hstep
      rw [HttpServer.serverStep, HttpServer.runTask, h.none] at hserver
      cases hserver
  | finish i w =>
      obtain ⟨index, task, a', hi, hindex, ha', hrefines⟩ := h.finish hstep
      exact ⟨[.run index w], a', _, hone ha', hrefines, .finish i index w task hi hindex⟩
  | notifyOne woken => exact ⟨[], a, [], rfl, h.pool rfl hstep, .notifyOne woken⟩
  | lock i => exact ⟨[], a, [], rfl, h.pool rfl hstep, .lock i⟩
  | wake i => exact ⟨[], a, [], rfl, h.pool rfl hstep, .wake i⟩

theorem Refines.new (threadNum : Nat) : Refines (new threadNum : PooledServer J) .new := by
  refine ⟨rfl, rfl, ?_⟩
  have hnone : (ThreadPool.new threadNum : ThreadPool Task).running = [] := by
    apply List.filterMap_eq_nil_iff.mpr
    intro w hw
    rw [List.eq_of_mem_replicate hw]
    rfl
  show List.Perm [] ((ThreadPool.new threadNum : ThreadPool Task).running ++ [])
  rw [hnone]
  exact List.Perm.refl _

/-- A step of the server but for which of its tasks is run. -/
def anyTask : ServerStep → ServerStep
  | .run _ w => .run 0 w
  | step => step

def PooledStep.anyTask : PooledStep → List ServerStep
  | .main step => [PooledServer.anyTask step]
  | .finish _ w => [.run 0 w]
  | _ => []

theorem Shows.anyTask {step : PooledStep} {ms : List ServerStep} (h : Shows s a step ms) :
    PooledStep.anyTask step = ms.map PooledServer.anyTask := by
  cases h <;> rfl

/-- A run of the two is one of the server, which meets what each step says of the steps it
is, and of which the same is seen. -/
theorem run_refines {γ : Type} {P : PooledServer J → PooledStep → Prop}
    {Q : HttpServer J → ServerStep → Prop} {f : PooledServer J → PooledStep → List γ}
    {h : HttpServer J → ServerStep → List γ}
    (hstep : ∀ s a step ms a' os, Refines s a → P s step → Shows s a step ms →
      (HttpServer.server cfg).exec a ms = some (a', os) →
        (HttpServer.server cfg).Meets Q a ms ∧ f s step = (HttpServer.server cfg).emitted h a ms)
    (hP : (pooled cfg threadNum).Meets P (new threadNum) steps)
    (hrun : (pooled cfg threadNum).run steps = some (s, os)) :
    ∃ ms a os', (HttpServer.server cfg).run ms = some (a, os') ∧ Refines s a ∧
      (HttpServer.server cfg).Meets Q .new ms ∧
      (pooled cfg threadNum).emitted f (new threadNum) steps =
        (HttpServer.server cfg).emitted h .new ms :=
  Machine.exec_refines (R := Refines) (fun s a step s' o hR hP hs => by
    obtain ⟨ms, a', os, ha', hR', hshows⟩ := hR.step (Machine.map_unit_eq_some.mp hs)
    exact ⟨ms, a', os, ha', hR', hstep s a step ms a' os hR hP hshows ha'⟩)
    (Refines.new threadNum) hP hrun

theorem run_server (hrun : (pooled cfg threadNum).run steps = some (s, os)) :
    ∃ ms a os', (HttpServer.server cfg).run ms = some (a, os') ∧ Refines s a ∧
      ms.map anyTask = steps.flatMap PooledStep.anyTask := by
  obtain ⟨ms, a, os', ha, hrefines, -, hseen⟩ := run_refines
    (P := fun _ _ => True) (Q := fun _ _ => True) (f := fun _ step => PooledStep.anyTask step)
    (h := fun _ step => [anyTask step])
    (fun s a step ms a' os _ _ hshows ha' => by
      refine ⟨Machine.meets_true _ ms a, ?_⟩
      rw [Machine.emitted_eq_flatMap ha', hshows.anyTask, List.map_eq_flatMap])
    (Machine.meets_true _ steps _) hrun
  refine ⟨ms, a, os', ha, hrefines, ?_⟩
  rw [List.map_eq_flatMap, ← Machine.emitted_eq_flatMap ha]
  exact hseen.symm.trans (Machine.emitted_eq_flatMap hrun)

/-- **The pool does what the server asks of it.** Every run of the event loop and of any number of
workers is a run of the server that takes its tasks in any order: the same steps in the same
order, to the same connections, timers and epoll, with the tasks that are queued or running. -/
theorem pooled_refines (hrun : (pooled cfg threadNum).run steps = some (s, os)) :
    ∃ steps' a os', (HttpServer.server cfg).run steps' = some (a, os') ∧
      s.server = a.withTasks [] ∧ a.tasks.Perm (s.pool.running ++ s.pool.tasksQueue) ∧
      steps'.map anyTask = steps.flatMap PooledStep.anyTask := by
  obtain ⟨ms, a, os', ha, hrefines, hseen⟩ := run_server hrun
  refine ⟨ms, a, os', ha, ?_, hrefines.tasks, hseen⟩
  rw [hrefines.server, ← hrefines.none]
  rfl

/-- Two workers; the second task is taken before its `notify_one`, and the third by the
worker that one wakes. -/
def pooledOnce : List PooledStep :=
  [.lock 0, .lock 1, .main (.listen [⟨5, ⟨10, 0, 0, 7⟩, .noSocket⟩]), .main (.deliver 5 EPOLLIN),
    .main (.handle []), .notifyOne (some 0), .lock 0,
    .finish 0 (HttpServer.busyAfter (ascii "GET / HTT") 0), .main (.deliver 5 EPOLLIN),
    .main (.handle []), .lock 0, .notifyOne (some 1),
    .finish 0 (HttpServer.busyAfter (ascii "P/1.1\r\n\r\n") 0),
    .main (.deliver 5 { EPOLLIN with epollin := false, epollout := true }), .main (.handle []),
    .lock 1, .notifyOne none, .finish 1 (HttpServer.busyAfter [] 10)]

theorem pooled_refines_once :
    ∃ s os steps' a os', (pooled (HttpServer.emptySite false) 2).run pooledOnce = some (s, os) ∧
      (HttpServer.server (HttpServer.emptySite false)).run steps' = some (a, os') ∧
      s.server = a.withTasks [] ∧ a.tasks.Perm (s.pool.running ++ s.pool.tasksQueue) ∧
      steps'.map anyTask = pooledOnce.flatMap PooledStep.anyTask := by
  have hsome : ((pooled (HttpServer.emptySite false) 2).run pooledOnce).isSome = true := by
    decide +kernel
  obtain ⟨⟨s, os⟩, hrun⟩ := Option.isSome_iff_exists.mp hsome
  obtain ⟨steps', a, os', h⟩ := pooled_refines hrun
  exact ⟨s, os, steps', a, os', hrun, h⟩

/-! ## §4  In one hand -/

/-- The tasks of a connection among these. -/
def tasksOf (fd : Int) (tasks : List Task) : Nat := tasks.countP fun task => task.user = fd

/-- The pool is open, and no worker sleeps over a task. -/
structure Works (s : PooledServer J) : Prop where
  isOpen : s.pool.isClose = false
  served : s.pool.Served

theorem Works.pool (h : Works s) {step : ThreadPool.PoolStep Task} (hmoves : step.moves = true)
    (hstep : s.poolStep step = some s') : Works s' := by
  obtain ⟨⟨pool, out⟩, hpool, rfl⟩ := Option.map_eq_some_iff.mp hstep
  exact ⟨(ThreadPool.poolStep_isClose hmoves hpool).trans h.isOpen, h.served.poolStep hpool⟩

theorem Works.step (h : Works s) {step : PooledStep} (hstep : s.pooledStep cfg step = some s') :
    Works s' := by
  cases step with
  | main step =>
      obtain ⟨server, -, rfl⟩ := Option.map_eq_some_iff.mp hstep
      refine ⟨?_, h.served.pushAll server.tasks⟩
      rw [ThreadPool.pushAll_eq]
      exact h.isOpen
  | notifyOne woken => exact h.pool rfl hstep
  | lock i => exact h.pool rfl hstep
  | wake i => exact h.pool rfl hstep
  | finish i w =>
      simp only [pooledStep, PooledServer.finish] at hstep
      split at hstep
      · rename_i htask
        obtain ⟨server, -, rfl⟩ := Option.map_eq_some_iff.mp hstep
        exact ⟨h.isOpen, h.served.setAwake (ThreadPool.taskOf_eq_some htask) rfl rfl rfl⟩
      · cases hstep

/-- **Each connection is in one hand.** In every state of the event loop with its workers, a
connection in static mode is watched by epoll, has an event that waits for the event loop, a task
in the queue or a worker that runs its task: one of them and once, so that between two steps no
two threads have it. And where tasks are queued, a worker is awake or will be woken for each of them. -/
theorem one_hand (hstatic : cfg.isSetProxy = false) (htimeout : cfg.timeout = 0)
    (hthreads : 1 ≤ threadNum) (hrun : (pooled cfg threadNum).run steps = some (s, os)) :
    (∀ fd, s.server.armed fd + s.server.unhandled fd + tasksOf fd s.pool.tasksQueue +
        tasksOf fd s.pool.running = if s.server.isConnected fd = true then 1 else 0) ∧
      ((∃ w ∈ s.pool.workers, w.isAwake) ∨ s.pool.tasksQueue.length ≤ s.pool.notifies) := by
  constructor
  · intro fd
    obtain ⟨ms, a, os', ha, hrefines, -⟩ := run_server hrun
    have htoken : HttpServer.OneToken none a := Machine.run_invariant HttpServer.OneToken.new
      (fun _ _ _ _ h hs => h.serverStep hstatic htimeout (HttpServer.server_step.mp hs)) ha
    have htokens := htoken.tokens fd
    have houtstanding : a.outstanding fd =
        tasksOf fd s.pool.running + tasksOf fd s.pool.tasksQueue :=
      (hrefines.tasks.countP_eq _).trans List.countP_append
    rw [houtstanding, hrefines.server] at htokens
    simp only [ne_eq, reduceCtorEq, not_false_eq_true, and_true] at htokens
    rw [Nat.add_assoc, Nat.add_comm (tasksOf fd s.pool.tasksQueue)]
    exact htokens
  · have hworks : Works s := Machine.run_invariant ⟨rfl, ThreadPool.Served.new hthreads⟩
      (fun _ _ _ _ h hs => h.step (Machine.map_unit_eq_some.mp hs)) hrun
    exact hworks.served.awake hworks.isOpen

/-- A worker runs the second task of a connection. -/
theorem one_hand_running :
    ∃ s os, (pooled (HttpServer.emptySite false) 2).run (pooledOnce.take 11) = some (s, os) ∧
      s.pool.running.length = 1 ∧
      (∀ fd, s.server.armed fd + s.server.unhandled fd + tasksOf fd s.pool.tasksQueue +
        tasksOf fd s.pool.running = if s.server.isConnected fd = true then 1 else 0) ∧
      ((∃ w ∈ s.pool.workers, w.isAwake) ∨ s.pool.tasksQueue.length ≤ s.pool.notifies) := by
  have hstate : ((pooled (HttpServer.emptySite false) 2).run (pooledOnce.take 11)).map
      (fun r => r.1.pool.running.length) = some 1 := by
    decide +kernel
  obtain ⟨⟨s, os⟩, hrun, hrunning⟩ := Option.map_eq_some_iff.mp hstate
  exact ⟨s, os, hrun, hrunning, one_hand (show (HttpServer.emptySite false).isSetProxy = false
    from rfl) rfl (by decide) hrun⟩

/-! ## §5  The answers of a connection -/

/-- What a step is for the descriptor `fd`. -/
def pooledEvents (fd : Int) (s : PooledServer J) : PooledStep → List DialogueEvent
  | .main step => HttpServer.dialogueEvents fd s.server step
  | .finish i w =>
      match s.pool.taskOf i with
      | some task => if task.user = fd then [task.kind.event w] else []
      | none => []
  | _ => []

/-- The kernel does what it says in what a worker does, and fewer than 2^32 bytes are pending
when it writes. -/
def Ordinary (s : PooledServer J) : PooledStep → Prop
  | .finish i w => SmallFiles w.fs ∧ MapsWhole w.fs ∧
      ∀ task client, s.pool.taskOf i = some task → task.kind = .onWrite →
        s.server.users task.user = some client →
          (handedOver w.counts client).isSome ∧ Narrow client
  | _ => True

theorem Shows.ordinary {step : PooledStep} {ms : List ServerStep} (hshows : Shows s a step ms)
    (h : Refines s a) (hordinary : s.Ordinary step) (fd : Int) :
    (HttpServer.server cfg).Meets HttpServer.Ordinary a ms ∧
      s.pooledEvents fd step =
        (HttpServer.server cfg).emitted (HttpServer.dialogueEvents fd) a ms := by
  cases hshows with
  | main step hrun =>
      rw [Machine.emitted_singleton, pooledEvents, h.server]
      cases step with
      | run index w => exact absurd rfl (hrun index w)
      | _ => exact ⟨⟨⟨trivial, trivial⟩, fun _ _ _ => trivial⟩, rfl⟩
  | finish i index w task htask hindex =>
      have husers : a.users = s.server.users := by rw [h.server]; rfl
      obtain ⟨hsmall, hmaps, hwrites⟩ := hordinary
      refine ⟨⟨⟨⟨hsmall, hmaps, ?_⟩, ?_⟩, fun _ _ _ => trivial⟩, ?_⟩
      · intro task' client hget hkind hclient
        obtain rfl : task' = task := Option.some.inj (hget.symm.trans hindex)
        rw [husers] at hclient
        exact (hwrites task' client htask hkind hclient).1
      · intro task' client hget hkind hclient
        obtain rfl : task' = task := Option.some.inj (hget.symm.trans hindex)
        rw [husers] at hclient
        exact (hwrites task' client htask hkind hclient).2
      · rw [Machine.emitted_singleton, pooledEvents, htask, HttpServer.dialogueEvents, hindex]
  | notifyOne woken => exact ⟨trivial, rfl⟩
  | lock i => exact ⟨trivial, rfl⟩
  | wake i => exact ⟨trivial, rfl⟩

/-- **Every client gets its answers from the workers.** However the event loop and the workers take
turns, the socket of a connection has been handed the answers to its requests one behind the
other, the last one perhaps cut, and all of them while the server waits for the next request. -/
theorem pooled_answers_in_order (hstatic : cfg.isSetProxy = false) (htimeout : cfg.timeout = 0)
    (hordinary : (pooled cfg threadNum).Meets Ordinary (new threadNum) steps)
    (hrun : (pooled cfg threadNum).run steps = some (s, os)) (fd : Int) :
    ∃ x os', (Dialogue.machine cfg fd).run
        ((pooled cfg threadNum).emitted (pooledEvents fd) (new threadNum) steps) = some (x, os') ∧
      x.conn = s.server.users fd ∧ (x.phase ≠ .closed ↔ s.server.isConnected fd = true) ∧
      (∀ a ∈ x.answers, a.Fresh cfg) ∧
      x.texts.dropLast.flatten <+: x.sent ∧ x.sent <+: x.texts.flatten ∧
      (x.phase = .reading → x.sent = x.texts.flatten) := by
  obtain ⟨ms, a, os₁, ha, hrefines, hmeets, hseen⟩ := run_refines
    (P := Ordinary) (Q := HttpServer.Ordinary) (f := pooledEvents fd)
    (h := HttpServer.dialogueEvents fd)
    (fun s a step ms a' os hR hP hshows _ => hshows.ordinary hR hP fd) hordinary hrun
  obtain ⟨x, os', hx, hsees, hinv⟩ := HttpServer.server_inOrder hstatic htimeout hmeets ha fd
  refine ⟨x, os', ?_, ?_, ?_, hinv.fresh, hinv.begun, hinv.bounded,
    fun hphase => (hinv.reading hphase).1⟩
  · rw [hseen]
    exact hx
  · rw [hsees.stands.conn, hrefines.server]
    rfl
  · rw [hsees.stands.isOpen, hrefines.server]
    rfl

/-! ### A client that two workers answer -/

/-- The socket accepts what it is told to. -/
def WritesGo (s : PooledServer J) : PooledStep → Prop
  | .finish i w => ∀ task ∈ s.pool.taskOf i, task.kind = .onWrite →
      ∀ client ∈ s.server.users task.user, (handedOver w.counts client).isSome ∧ Narrow client
  | _ => True

instance (s : PooledServer J) : (step : PooledStep) → Decidable (s.WritesGo step)
  | .finish i w => inferInstanceAs (Decidable (∀ task ∈ s.pool.taskOf i, task.kind = .onWrite →
      ∀ client ∈ s.server.users task.user, (handedOver w.counts client).isSome ∧ Narrow client))
  | .main _ => isTrue trivial
  | .notifyOne _ => isTrue trivial
  | .lock _ => isTrue trivial
  | .wake _ => isTrue trivial

/-- Every answer is made of these files. -/
def WithFiles (fs : FileSystem) : PooledStep → Prop
  | .finish _ w => w.fs = fs
  | _ => True

theorem ordinary_of_files {fs : FileSystem} (hsmall : SmallFiles fs) (hwhole : MapsWhole fs)
    (hfiles : ∀ step ∈ steps, WithFiles fs step)
    (h : (pooled cfg threadNum).Meets WritesGo s steps) :
    (pooled cfg threadNum).Meets Ordinary s steps := by
  refine h.mono_of_mem fun step hstep s hgo => ?_
  have hfs := hfiles step hstep
  cases step with
  | finish i w =>
      rw [WithFiles] at hfs
      refine ⟨?_, ?_, ?_⟩
      · rw [hfs]
        exact hsmall
      · rw [hfs]
        exact hwhole
      · intro task client htask hkind hclient
        exact hgo task htask hkind client hclient
  | _ => trivial

theorem pooled_answers_in_order_once :
    ∃ s os x os', (pooled (HttpServer.emptySite false) 2).run pooledOnce = some (s, os) ∧
      (Dialogue.machine (HttpServer.emptySite false) 5).run
        ((pooled (HttpServer.emptySite false) 2).emitted (pooledEvents 5) (new 2) pooledOnce) =
          some (x, os') ∧
      x.answers.length = 1 ∧ x.sent.length = 10 ∧ x.sent <+: x.texts.flatten := by
  have hstate : (((pooled (HttpServer.emptySite false) 2).run pooledOnce).bind fun r =>
      ((Dialogue.machine (HttpServer.emptySite false) 5).run
        ((pooled (HttpServer.emptySite false) 2).emitted (pooledEvents 5) (new 2) pooledOnce)).map
          fun r' => (r.1.server.isConnected 5, r'.1.answers.length, r'.1.sent.length)) =
      some (true, 1, 10) := by
    decide +kernel
  obtain ⟨⟨s, os⟩, hrun, hstate⟩ := Option.bind_eq_some_iff.mp hstate
  obtain ⟨⟨x, os'⟩, hx, hstate⟩ := Option.map_eq_some_iff.mp hstate
  simp only [Prod.mk.injEq] at hstate
  obtain ⟨-, hanswers, hsent⟩ := hstate
  have hfiles : ∀ step ∈ pooledOnce, WithFiles noFiles step := by
    simp [pooledOnce, WithFiles, HttpServer.busyAfter]
  have hsmall : SmallFiles noFiles := by
    intro path st hst
    cases hst
  have hwhole : MapsWhole noFiles := by
    intro path size file hfile
    cases hfile
  have hordinary : (pooled (HttpServer.emptySite false) 2).Meets Ordinary (new 2) pooledOnce :=
    ordinary_of_files hsmall hwhole hfiles (by decide +kernel)
  obtain ⟨x', os'', hx', -, -, -, -, hbounded, -⟩ :=
    pooled_answers_in_order (show (HttpServer.emptySite false).isSetProxy = false from rfl) rfl
      hordinary hrun 5
  obtain ⟨rfl, -⟩ := Prod.mk.inj (Option.some.inj (hx.symm.trans hx'))
  exact ⟨s, os, x, os', hrun, hx, hanswers, hsent, hbounded⟩

end PooledServer

end WhiteWebServer
