import WhiteWebServer.Dialogue

/-!
# The timeout of an idle client

With a timeout the static server arms a timer for each client that it accepts, arms it
again when an event of the client is handled and when an answer of a persistent connection
is out, and closes the client when it expires. The heap of timers is taken here as the map
from descriptors to a deadline and a callback that its interface describes, and each handler
of the event loop and each task is one atomic step. §1 the clock of one client, without a
server; §2 what each step of the server is for it; §3 what the server has of a descriptor is
filed under it; §4 what the handlers do to timers; §5 the timers are the clocks, and a client
is closed once it has been idle for the timeout, not before.
-/

namespace WhiteWebServer

open HttpConn

/-! ## §1  One clock -/

inductive IdleEvent
  | accepted
  /-- an event of the client is handled, or an answer is out -/
  | active
  | elapsed (ms : Nat)
  | expired
  deriving DecidableEq

/-- How long the client may still be idle, while it is timed. -/
def IdleEvent.step (timeout : Int) (left : Option Int) : IdleEvent → Option (Option Int)
  | .accepted => some (some timeout)
  | .active => some (left.map fun _ => timeout)
  | .elapsed ms => some (left.map (· - ms))
  | .expired => left.bind fun ms => if ms ≤ 0 then some none else none

def idleClock (timeout : Int) : Machine (Option Int) IdleEvent Unit where
  init := none
  step left event := (event.step timeout left).map (·, ())

/-- How long ago the client was accepted or last active. -/
def idleTime (events : List IdleEvent) : Nat :=
  events.foldl (fun idle event =>
    match event with
    | .accepted | .active => 0
    | .elapsed ms => idle + ms
    | .expired => idle) 0

section clock

variable {timeout : Int}

theorem idleClock_step {left left' : Option Int} {event : IdleEvent} {o : Unit} :
    (idleClock timeout).step left event = some (left', o) ↔
      event.step timeout left = some left' :=
  Machine.map_unit_eq_some

/-- A client that is timed has the time left that it has not been idle. -/
theorem idleClock_left {events : List IdleEvent} {left : Option Int} {os : List Unit}
    (hrun : (idleClock timeout).run events = some (left, os)) :
    ∀ ms, left = some ms → ms = timeout - idleTime events := by
  induction events using List.reverseRecOn generalizing left os with
  | nil =>
      intro ms hms
      obtain ⟨rfl, -⟩ := Prod.mk.inj (Option.some.inj hrun)
      cases hms
  | append_singleton events event ih =>
      intro ms hms
      obtain ⟨left₁, os₁, o, hbefore, hstep, -⟩ := Machine.exec_snoc.mp hrun
      have hstep := idleClock_step.mp hstep
      rw [idleTime, List.foldl_append, ← idleTime]
      cases event with
      | accepted =>
          obtain rfl := Option.some.inj hstep
          exact (Option.some.inj hms).symm.trans (sub_zero timeout).symm
      | active =>
          obtain rfl := Option.some.inj hstep
          obtain ⟨-, -, rfl⟩ := Option.map_eq_some_iff.mp hms
          exact (sub_zero timeout).symm
      | elapsed ms' =>
          obtain rfl := Option.some.inj hstep
          obtain ⟨ms₁, hms₁, rfl⟩ := Option.map_eq_some_iff.mp hms
          rw [ih hbefore ms₁ hms₁]
          show timeout - _ - _ = timeout - ((_ + ms' : Nat) : Int)
          rw [Nat.cast_add, sub_sub]
      | expired =>
          obtain ⟨ms₁, -, hstep⟩ := Option.bind_eq_some_iff.mp hstep
          obtain ⟨-, hnone⟩ := Option.ite_none_right_eq_some.mp hstep
          obtain rfl := Option.some.inj hnone
          cases hms

end clock

namespace HttpServer

variable {J : Type} {cfg : ServerConfig J} {s s' : HttpServer J} {fd : Int}
  {client client' : HttpConn J}

/-! ## §2  What a step of the server is -/

/-- The task ends with all of an answer written, and the connection stays. -/
def FinishesAnswer (w : TaskWorld) (task : Task) (s : HttpServer J) : Prop :=
  task.kind = .onWrite ∧ ∃ client ∈ s.users task.user,
    WroteAll w client ∧ (client.writeToFd w.last w.counts).2.isKeepAlive = true

instance (w : TaskWorld) (task : Task) (s : HttpServer J) :
    Decidable (FinishesAnswer w task s) := by
  unfold FinishesAnswer WroteAll
  infer_instance

def idleEvents (fd : Int) (s : HttpServer J) : ServerStep → List IdleEvent
  | .listen accepts =>
      ((admitted s.userCount accepts).filter fun a => a.fd = fd).map fun _ => .accepted
  | .deliver _ _ => []
  | .handle _ =>
      match s.delivered.head? with
      | some e =>
          if e.1 = fd ∧ ¬ e.2.hangsUp = true ∧ (e.2.epollin ∨ e.2.epollout) then [.active] else []
      | none => []
  | .run index w =>
      match s.tasks[index]? with
      | some task => if task.user = fd ∧ FinishesAnswer w task s then [.active] else []
      | none => []
  | .elapse ms => [.elapsed ms]
  | .expire d => if d = fd then [.expired] else []

/-- What the steps of a run are for the clock of the descriptor `fd`. -/
def idleEventsAt (cfg : ServerConfig J) (fd : Int) (steps : List ServerStep) : List IdleEvent :=
  (server cfg).emitted (idleEvents fd) new steps

/-! ## §3  What is filed under a descriptor -/

/-- Without a backend, every connection is filed under its descriptor, and what epoll watches,
what it has reported, what is queued and what is timed is so for a connection that was there;
one that is open is timed. -/
structure Filed (s : HttpServer J) : Prop where
  own : ∀ user client, s.users user = some client → client.fd = user
  watched : ∀ d, (s.epoll d).isSome = true → (s.users d).isSome = true
  reported : ∀ e ∈ s.delivered, (s.users e.1).isSome = true
  queued : ∀ task ∈ s.tasks, (s.users task.user).isSome = true ∧ task.inProxy = false
  timers : ∀ d entry, s.timer d = some entry → entry.2 = d ∧ (s.users d).isSome = true
  timed : ∀ d, s.isConnected d = true → (s.timer d).isSome = true

theorem Filed.new : Filed (new : HttpServer J) := by
  constructor
  case own =>
    intro user client h
    cases h
  case watched => exact fun d h => absurd h Bool.false_ne_true
  case reported => exact fun e h => absurd h List.not_mem_nil
  case queued => exact fun task h => absurd h List.not_mem_nil
  case timers =>
    intro d entry h
    cases h
  case timed => exact fun d h => absurd h Bool.false_ne_true

/-- `ExtentTime` where the connection is filed under `fd`. -/
def extended (cfg : ServerConfig J) (fd : Int) (s : HttpServer J) : TimerMap Int :=
  Function.update s.timer fd ((s.timer fd).map fun entry => (s.now + cfg.timeout, entry.2))

/-- What a handler does for the connection filed under `fd`. -/
structure Serves (cfg : ServerConfig J) (fd : Int) (active : Prop) (s s' : HttpServer J) :
    Prop where
  users : ∃ client : HttpConn J, s'.users = Function.update s.users fd (some client) ∧
    client.fd = fd ∧ (client.isClose = false → s.isConnected fd = true)
  epoll : ∀ d, (s'.epoll d).isSome = true → d = fd ∨ (s.epoll d).isSome = true
  delivered : s'.delivered = s.delivered
  tasks : ∀ task ∈ s'.tasks, task ∈ s.tasks ∨ (task.user = fd ∧ task.inProxy = false)
  now : s'.now = s.now
  timer : (active → s'.timer = s.extended cfg fd) ∧ (¬ active → s'.timer = s.timer)

/-- Taking something off a queue keeps what is filed. -/
theorem Filed.fewer (h : Filed s) {delivered : List (Int × EpollEvents)} {tasks : List Task}
    (hdelivered : ∀ e ∈ delivered, e ∈ s.delivered) (htasks : ∀ task ∈ tasks, task ∈ s.tasks) :
    Filed { s with delivered := delivered, tasks := tasks } where
  own := h.own
  watched := h.watched
  reported e he := h.reported e (hdelivered e he)
  queued task htask := h.queued task (htasks task htask)
  timers := h.timers
  timed := h.timed

theorem extended_isSome (cfg : ServerConfig J) (fd d : Int) (s : HttpServer J) :
    (s.extended cfg fd d).isSome = (s.timer d).isSome := by
  unfold extended
  rw [Function.update_apply]
  split
  · rename_i hd
    rw [hd, Option.isSome_map]
  · rfl

theorem extended_own (h : Filed s) {d : Int} {entry : Int × Int}
    (hentry : s.extended cfg fd d = some entry) : entry.2 = d := by
  unfold extended at hentry
  rw [Function.update_apply] at hentry
  split at hentry
  · rename_i hd
    obtain ⟨old, hold, rfl⟩ := Option.map_eq_some_iff.mp hentry
    rw [hd]
    exact (h.timers fd old hold).1
  · exact (h.timers d entry hentry).1

/-- One connection changes, and stays filed where it was. -/
theorem Filed.updates (h : Filed s) (husers : s'.users = Function.update s.users fd (some client))
    (hfd : client.fd = fd)
    (hepoll : ∀ d, (s'.epoll d).isSome = true → d = fd ∨ (s.epoll d).isSome = true)
    (hdelivered : s'.delivered = s.delivered)
    (htasks : ∀ task ∈ s'.tasks, task ∈ s.tasks ∨ (task.user = fd ∧ task.inProxy = false))
    (htimer : ∀ d entry, s'.timer d = some entry →
      entry.2 = d ∧ (d = fd ∨ (s.timer d).isSome = true))
    (hkept : ∀ d, (s.timer d).isSome = true → (s'.timer d).isSome = true)
    (hopen : client.isClose = false → (s'.timer fd).isSome = true) : Filed s' := by
  have hsome : ∀ d, d = fd ∨ (s.users d).isSome = true → (s'.users d).isSome = true := by
    intro d hd
    rw [husers, Function.update_apply]
    split
    · rfl
    · rename_i hne
      exact hd.resolve_left hne
  constructor
  case own =>
    intro user c hc
    rw [husers, Function.update_apply] at hc
    split at hc
    · rename_i huser
      rw [← Option.some.inj hc, huser]
      exact hfd
    · exact h.own user c hc
  case watched => exact fun d hd => hsome d ((hepoll d hd).imp_right (h.watched d))
  case reported =>
    rw [hdelivered]
    exact fun e he => hsome e.1 (Or.inr (h.reported e he))
  case queued =>
    intro task htask
    rcases htasks task htask with hold | ⟨huser, hdirect⟩
    · exact ⟨hsome _ (Or.inr (h.queued task hold).1), (h.queued task hold).2⟩
    · exact ⟨hsome _ (Or.inl huser), hdirect⟩
  case timers =>
    intro d entry hentry
    obtain ⟨hown, hd⟩ := htimer d entry hentry
    refine ⟨hown, hsome d (hd.imp_right fun hold => ?_)⟩
    obtain ⟨old, hold⟩ := Option.isSome_iff_exists.mp hold
    exact (h.timers d old hold).2
  case timed =>
    intro d hd
    by_cases hdfd : d = fd
    · subst hdfd
      obtain ⟨c, hc, hcopen⟩ := isConnected_iff.mp hd
      rw [husers, Function.update_self] at hc
      rw [← Option.some.inj hc] at hcopen
      exact hopen hcopen
    · apply hkept
      apply h.timed
      rw [isConnected_of_users_eq (s := s)] at hd
      · exact hd
      · rw [husers, Function.update_of_ne hdfd]

theorem Filed.serves {active : Prop} (h : Filed s) (hserves : Serves cfg fd active s s') :
    Filed s' := by
  obtain ⟨client, husers, hfd, hopen⟩ := hserves.users
  have hkept : ∀ d, (s'.timer d).isSome = (s.timer d).isSome := by
    intro d
    by_cases hactive : active
    · rw [hserves.timer.1 hactive]
      exact extended_isSome cfg fd d s
    · rw [hserves.timer.2 hactive]
  apply h.updates husers hfd hserves.epoll hserves.delivered hserves.tasks
  case htimer =>
    intro d entry hentry
    have hsome : (s.timer d).isSome = true := by
      rw [← hkept, hentry]
      rfl
    refine ⟨?_, Or.inr hsome⟩
    by_cases hactive : active
    · rw [hserves.timer.1 hactive] at hentry
      exact extended_own h hentry
    · rw [hserves.timer.2 hactive] at hentry
      exact (h.timers d entry hentry).1
  case hkept =>
    intro d hd
    rw [hkept]
    exact hd
  case hopen =>
    intro hc
    rw [hkept]
    exact h.timed fd (hopen hc)

/-! ## §4  The handlers -/

theorem Serves.of_setUser {active : Prop} (huser : s.users fd = some client)
    (hsame : SameEnds client client') (h : Serves cfg fd active (s.setUser fd client') s') :
    Serves cfg fd active s s' := by
  obtain ⟨c, husers, hfd, hopen⟩ := h.users
  refine ⟨⟨c, ?_, hfd, fun hc => ?_⟩, h.epoll, h.delivered, h.tasks, h.now, h.timer⟩
  · rw [husers]
    exact Function.update_idem ..
  · obtain ⟨c', hc', hc'open⟩ := isConnected_iff.mp (hopen hc)
    rw [setUser_users_self] at hc'
    obtain rfl := Option.some.inj hc'
    exact isConnected_of_user huser (hsame.isClose.symm.trans hc'open)

/-- The connection is put back and watched. -/
theorem serves_watch (huser : s.users fd = some client) (hfd : client.fd = fd)
    (hsame : SameEnds client client') (events : EpollEvents) :
    Serves cfg fd False s ((s.setUser fd client').watch client'.fd events) := by
  have hfd' : client'.fd = fd := hsame.fd.trans hfd
  constructor
  case users => exact ⟨client', rfl, hfd', fun hopen =>
    isConnected_of_user huser (hsame.isClose.symm.trans hopen)⟩
  case epoll =>
    intro d hd
    by_cases hdfd : d = fd
    · exact Or.inl hdfd
    · rw [watch_epoll_other events (hfd' ▸ hdfd)] at hd
      exact Or.inr hd
  case delivered => rfl
  case tasks => exact fun task htask => Or.inl htask
  case now => rfl
  case timer => exact ⟨False.elim, fun _ => rfl⟩

theorem closeConn_serves (hstatic : cfg.isSetProxy = false) (huser : s.users fd = some client)
    (hfd : client.fd = fd) (hclose : s.closeConn cfg fd = some s') :
    Serves cfg fd False s s' ∧ s'.isConnected fd = false := by
  unfold closeConn at hclose
  rw [userAt_of_user huser] at hclose
  simp only [bind, Option.bind, closeClient, hstatic, Bool.false_eq_true, if_false] at hclose
  cases hclosed : client.close cfg.js with
  | error e => simp [hclosed] at hclose
  | ok closed =>
      obtain ⟨hisClose, hclosedFd, -⟩ := HttpConn.close_kept hclosed
      simp only [hclosed] at hclose
      have hless : ∀ {f : Int → Option Registration} {d d' : Int},
          (Function.update f d' none d).isSome = true → (f d).isSome = true := by
        intro f d d' hd
        rw [Function.update_apply] at hd
        split at hd
        · cases hd
        · exact hd
      have hcloses : ∀ (epoll : Int → Option Registration) (owner : Int → Option Owner)
          (userCount : Nat) (closings : List Closing),
          (∀ d, (epoll d).isSome = true → (s.epoll d).isSome = true) →
            some { s.setUser fd closed with
              epoll := epoll, owner := owner, userCount := userCount, closings := closings } =
                some s' → Serves cfg fd False s s' ∧ s'.isConnected fd = false := by
        intro epoll owner userCount closings hepoll heq
        obtain rfl := Option.some.inj heq
        constructor
        · constructor
          case users =>
            refine ⟨closed, rfl, hclosedFd.trans hfd, fun hopen => ?_⟩
            rw [hisClose] at hopen
            cases hopen
          case epoll => exact fun d hd => Or.inr (hepoll d hd)
          case delivered => rfl
          case tasks => exact fun task htask => Or.inl htask
          case now => rfl
          case timer => exact ⟨False.elim, fun _ => rfl⟩
        · apply Bool.eq_false_iff.mpr
          intro hconnected
          obtain ⟨c, hc, hopen⟩ := isConnected_iff.mp hconnected
          have hc : (s.setUser fd closed).users fd = some c := hc
          rw [setUser_users_self] at hc
          rw [← Option.some.inj hc, hisClose] at hopen
          cases hopen
      split at hclose
      · exact hcloses _ _ _ _ (fun d hd => hless hd) hclose
      split at hclose
      · exact hcloses _ _ _ _ (fun d hd => hless (hless (hless hd))) hclose
      · exact hcloses _ _ _ _ (fun d hd => hless (hless hd)) hclose

theorem onProcessStatic_serves {w : TaskWorld} (huser : s.users fd = some client)
    (hfd : client.fd = fd) (hsame : SameEnds client client')
    (h : s.onProcessStatic cfg w fd client' = some s') : Serves cfg fd False s s' := by
  unfold onProcessStatic at h
  cases hprocess : client'.process cfg.js w.fs cfg.webRoot with
  | error e => simp [hprocess] at h
  | ok result =>
      obtain ⟨result, client''⟩ := result
      have hsame' := process_same hprocess
      have hboth : SameEnds client client'' :=
        ⟨hsame'.fd.trans hsame.fd, hsame'.proxyFd.trans hsame.proxyFd,
          hsame'.isClose.trans hsame.isClose⟩
      cases result
      all_goals
        simp only [hprocess, Option.some.injEq] at h
        subst h
        exact serves_watch huser hfd hboth _

theorem onRead_serves (hstatic : cfg.isSetProxy = false) {w : TaskWorld}
    (huser : s.users fd = some client) (hfd : client.fd = fd)
    (hread : s.onRead cfg w fd = some s') : Serves cfg fd False s s' := by
  have hsame : SameEnds client (client.readFromFd w.reads) := ⟨rfl, rfl, rfl⟩
  unfold onRead at hread
  rw [userAt_of_user huser] at hread
  simp only [bind, Option.bind, hstatic, Bool.false_eq_true, if_false] at hread
  split at hread
  · have hclosed := (closeConn_serves hstatic setUser_users_self (hsame.fd.trans hfd) hread).1
    exact hclosed.of_setUser huser hsame
  · exact onProcessStatic_serves huser hfd hsame hread

theorem extentTime_extended (htimeout : 0 < cfg.timeout) (hfd : client.fd = fd) :
    s.extentTime cfg client = { s with timer := s.extended cfg fd } := by
  unfold extentTime extended
  rw [if_neg htimeout.ne', hfd]

/-- The connection is active, and watched again. -/
theorem Serves.extends (htimeout : 0 < cfg.timeout) (huser : s.users fd = some client)
    (hfd : client.fd = fd) (hsame : SameEnds client client') (events : EpollEvents) :
    Serves cfg fd True s
      (((s.setUser fd client').extentTime cfg client').watch client'.fd events) := by
  have hserves : Serves cfg fd False s ((s.setUser fd client').watch client'.fd events) :=
    serves_watch huser hfd hsame events
  rw [extentTime_extended htimeout (hsame.fd.trans hfd)]
  exact ⟨hserves.users, hserves.epoll, hserves.delivered, hserves.tasks, hserves.now,
    fun _ => rfl, fun hnot => absurd trivial hnot⟩

theorem onWrite_serves (hstatic : cfg.isSetProxy = false) (htimeout : 0 < cfg.timeout)
    {w : TaskWorld} {task : Task} (huser : s.users task.user = some client)
    (hfd : client.fd = task.user) (hkind : task.kind = .onWrite) (hdirect : task.inProxy = false)
    (hwrite : s.onWrite cfg w task.user task.inProxy = some s') :
    Serves cfg task.user (FinishesAnswer w task s) s s' := by
  have hsame : SameEnds client (client.writeToFd w.last w.counts).2 :=
    (writeLoop_same w.last w.counts 0 client).1
  have hfinishes : FinishesAnswer w task s ↔
      (client.writeToFd w.last w.counts).2.pendingWriteBytes = 0 ∧
        (client.writeToFd w.last w.counts).2.isKeepAlive = true := by
    unfold FinishesAnswer WroteAll
    rw [huser, hkind]
    simp
  have hpair : client.writeToFd w.last w.counts =
      ((client.writeToFd w.last w.counts).1, (client.writeToFd w.last w.counts).2) := rfl
  rw [onWrite_of_user huser hpair, hdirect] at hwrite
  unfold onWritten at hwrite
  simp only [Bool.false_eq_true, and_false, if_false] at hwrite
  split at hwrite
  · rename_i hfinish
    obtain rfl := Option.some.inj hwrite
    have hserves := Serves.extends htimeout huser hfd hsame connEventIn
    rw [← eq_true (hfinishes.mpr hfinish)] at hserves
    exact hserves
  rename_i hnot
  rw [show FinishesAnswer w task s ↔ False from iff_of_false (fun h => hnot (hfinishes.mp h)) id]
  split at hwrite
  · obtain rfl := Option.some.inj hwrite
    exact serves_watch huser hfd hsame connEventOut
  · have hclosed := (closeConn_serves hstatic setUser_users_self (hsame.fd.trans hfd) hwrite).1
    exact hclosed.of_setUser huser hsame

theorem dealTask_serves (hstatic : cfg.isSetProxy = false) (htimeout : 0 < cfg.timeout)
    {kind : TaskKind} (huser : s.users fd = some client) (hfd : client.fd = fd)
    (hdeal : s.dealTask cfg kind fd = some s') : Serves cfg fd True s s' := by
  unfold dealTask at hdeal
  simp only [hstatic, Bool.false_eq_true, if_false, userAt_of_user huser, bind, Option.bind,
    extentTime_extended htimeout hfd, Option.some.injEq] at hdeal
  subst hdeal
  constructor
  case users =>
    refine ⟨client, ?_, hfd, isConnected_of_user huser⟩
    rw [← huser, Function.update_eq_self]
  case epoll => exact fun d hd => Or.inr hd
  case delivered => rfl
  case tasks =>
    intro task htask
    rcases List.mem_append.mp htask with hold | hnew
    · exact Or.inl hold
    · rw [List.mem_singleton.mp hnew]
      exact Or.inr ⟨rfl, rfl⟩
  case now => rfl
  case timer => exact ⟨fun _ => rfl, fun hnot => absurd trivial hnot⟩

/-! ### Accepting -/

/-- The client that is accepted is filed, and its timer is armed. -/
theorem Filed.adds (h : Filed s) (htimeout : 0 < cfg.timeout) {addr : SockAddr}
    (hadd : (s.openFd fd).addClient cfg fd addr (-1) = some s') :
    Filed s' ∧ s'.now = s.now ∧ s'.userCount = s.userCount + 1 ∧
      s'.timer = Function.update s.timer fd (some (s.now + cfg.timeout, fd)) := by
  have hadded := addClient_added hadd
  obtain ⟨client, husers, hfd, -, hopen, -⟩ := hadded.users
  have htimer : s'.timer = Function.update s.timer fd (some (s.now + cfg.timeout, fd)) := by
    rw [hadded.timer, addTimer, if_neg htimeout.ne']
    rfl
  have husers : s'.users = Function.update s.users fd (some client) := husers
  refine ⟨?_, hadded.now, hadded.userCount, htimer⟩
  apply h.updates husers hfd
  case hepoll =>
    intro d hd
    rw [hadded.epoll, if_neg (not_not_intro rfl)] at hd
    by_cases hdfd : d = fd
    · exact Or.inl hdfd
    · rw [watch_epoll_other connEventIn hdfd] at hd
      exact Or.inr hd
  case hdelivered => exact hadded.delivered
  case htasks =>
    rw [hadded.tasks]
    exact fun task htask => Or.inl htask
  case htimer =>
    intro d entry hentry
    rw [htimer, Function.update_apply] at hentry
    split at hentry
    · rename_i hd
      rw [← Option.some.inj hentry]
      exact ⟨hd.symm, Or.inl hd⟩
    · refine ⟨(h.timers d entry hentry).1, Or.inr ?_⟩
      rw [hentry]
      rfl
  case hkept =>
    intro d hd
    rw [htimer, Function.update_apply]
    split
    · rfl
    · exact hd
  case hopen =>
    intro _
    rw [htimer, Function.update_self]
    rfl

/-- The timers of the clients that are taken in. -/
theorem Filed.dealListen (hstatic : cfg.isSetProxy = false) (htimeout : 0 < cfg.timeout) :
    ∀ (accepts : List Accept) {s : HttpServer J}, Filed s →
      s.dealListen cfg accepts = some s' → Filed s' ∧ s'.now = s.now ∧
        ∀ d, s'.timer d = if (admitted s.userCount accepts).any (·.fd = d) then
          some (s.now + cfg.timeout, d) else s.timer d := by
  intro accepts
  induction accepts with
  | nil =>
      intro s h hlisten
      obtain rfl := Option.some.inj hlisten
      exact ⟨h, rfl, fun d => rfl⟩
  | cons a rest ih =>
      intro s h hlisten
      unfold HttpServer.dealListen at hlisten
      unfold admitted
      by_cases hfd : a.fd < 0
      · rw [if_pos hfd] at hlisten
        rw [if_pos (Or.inl hfd)]
        obtain rfl := Option.some.inj hlisten
        exact ⟨h, rfl, fun d => rfl⟩
      rw [if_neg hfd] at hlisten
      split at hlisten
      · cases hlisten
      dsimp only at hlisten
      by_cases hfull : kMaxFd ≤ s.userCount
      · rw [if_pos (show (s.openFd a.fd).userCount ≥ kMaxFd from hfull)] at hlisten
        rw [if_pos (Or.inr hfull)]
        obtain rfl := Option.some.inj hlisten
        refine ⟨⟨h.own, fun d hd => h.watched d ?_, h.reported, h.queued, h.timers, h.timed⟩, rfl,
          fun d => rfl⟩
        -- `close` takes the descriptor out of epoll
        have hd : (Function.update s.epoll a.fd none d).isSome = true := hd
        rw [Function.update_apply] at hd
        split at hd
        · cases hd
        · exact hd
      · rw [if_neg (show ¬ (s.openFd a.fd).userCount ≥ kMaxFd from hfull), hstatic] at hlisten
        rw [if_neg fun hor => hor.elim hfd hfull]
        obtain ⟨s₁, hadd, hrest⟩ := Option.bind_eq_some_iff.mp hlisten
        obtain ⟨h₁, hnow, hcount, htimer⟩ := h.adds htimeout hadd
        obtain ⟨h', hnow', htimers⟩ := ih h₁ hrest
        refine ⟨h', hnow'.trans hnow, fun d => ?_⟩
        rw [htimers d, hcount, hnow, htimer, List.any_cons, Function.update_apply]
        by_cases hany : (admitted (s.userCount + 1) rest).any (·.fd = d) = true
        · rw [if_pos hany, hany, Bool.or_true, if_pos rfl]
        · rw [if_neg hany, Bool.eq_false_iff.mpr hany, Bool.or_false]
          by_cases hd : d = a.fd
          · rw [if_pos hd, if_pos (decide_eq_true hd.symm), hd]
          · rw [if_neg hd, if_neg fun heq => hd (of_decide_eq_true heq).symm]

/-! ### Expiring -/

theorem Filed.expires (h : Filed s) (hstatic : cfg.isSetProxy = false)
    (hexpire : s.expire cfg fd = some s') :
    Filed s' ∧ s'.now = s.now ∧ s'.timer = Function.update s.timer fd none ∧
      s'.isConnected fd = false ∧
      ∃ deadline, s.timer fd = some (deadline, fd) ∧ deadline ≤ s.now := by
  unfold expire at hexpire
  cases htimer : s.timer fd with
  | none => simp [htimer] at hexpire
  | some entry =>
      obtain ⟨deadline, user⟩ := entry
      obtain ⟨rfl, hsome⟩ := h.timers fd _ htimer
      obtain ⟨client, huser⟩ := Option.isSome_iff_exists.mp hsome
      simp only [htimer] at hexpire
      obtain ⟨hdue, hexpire⟩ := Option.ite_none_right_eq_some.mp hexpire
      obtain ⟨s₁, hclose, heq⟩ := Option.bind_eq_some_iff.mp hexpire
      obtain ⟨hserves, hclosed⟩ := closeConn_serves hstatic huser (h.own _ client huser) hclose
      have h₁ := h.serves hserves
      have htimer₁ : s₁.timer = s.timer := hserves.timer.2 id
      obtain rfl := Option.some.inj heq
      refine ⟨?_, hserves.now, by rw [← htimer₁], hclosed, deadline, rfl, hdue.2.1⟩
      refine ⟨h₁.own, h₁.watched, h₁.reported, h₁.queued, fun d entry hentry => ?_,
        fun d hd => ?_⟩
      · have hentry : Function.update s₁.timer user none d = some entry := hentry
        rw [Function.update_apply] at hentry
        split at hentry
        · cases hentry
        · exact h₁.timers d entry hentry
      · show (Function.update s₁.timer user none d).isSome = true
        rw [Function.update_apply, if_neg]
        · exact h₁.timed d hd
        · rintro rfl
          exact absurd (hclosed.symm.trans hd) Bool.false_ne_true

/-! ## §5  The timers are the clocks -/

/-- The timer of the descriptor is what its clock says. -/
def Ticks (fd : Int) (s : HttpServer J) (left : Option Int) : Prop :=
  s.timer fd = left.map fun ms => (s.now + ms, fd)

theorem Ticks.serves {active : Prop} {d : Int} {left : Option Int} (h : Ticks fd s left)
    (hserves : Serves cfg d active s s') :
    (d = fd ∧ active → Ticks fd s' (left.map fun _ => cfg.timeout)) ∧
      (¬ (d = fd ∧ active) → Ticks fd s' left) := by
  constructor
  · rintro ⟨rfl, hactive⟩
    rw [Ticks, hserves.timer.1 hactive, hserves.now, extended, Function.update_self, h]
    cases left <;> rfl
  · intro hnot
    rw [Ticks, hserves.now, ← h]
    by_cases hactive : active
    · rw [hserves.timer.1 hactive, extended, Function.update_of_ne]
      rintro rfl
      exact hnot ⟨rfl, hactive⟩
    · rw [hserves.timer.2 hactive]

theorem idleClock_accepts (timeout : Int) (accepts : List Accept) (left : Option Int) :
    ∃ os, (idleClock timeout).exec left (accepts.map fun _ => .accepted) =
      some (if accepts = [] then left else some timeout, os) := by
  induction accepts generalizing left with
  | nil => exact ⟨[], rfl⟩
  | cons a rest ih =>
      obtain ⟨os, hexec⟩ := ih (some timeout)
      refine ⟨() :: os, Machine.exec_cons_eq_some.mpr ⟨some timeout, (), os, rfl, ?_, rfl⟩⟩
      rw [if_neg (List.cons_ne_nil a rest), hexec, ite_self]

/-- A step of the clock, for what a handler does. -/
theorem Ticks.active {active : Prop} [Decidable active] {d : Int} {left : Option Int}
    (h : Ticks fd s left) (hserves : Serves cfg d active s s') :
    ∃ left' os, (idleClock cfg.timeout).exec left (if d = fd ∧ active then [.active] else []) =
      some (left', os) ∧ Ticks fd s' left' := by
  obtain ⟨hagain, hsame⟩ := h.serves hserves
  split
  · rename_i hactive
    exact ⟨_, _, rfl, hagain hactive⟩
  · rename_i hnot
    exact ⟨left, [], rfl, hsame hnot⟩

theorem handle_ticks {connects : List Connect} {left : Option Int} (h : Filed s)
    (hticks : Ticks fd s left) (hstatic : cfg.isSetProxy = false) (htimeout : 0 < cfg.timeout)
    (hhandle : s.handle cfg connects = some s') :
    Filed s' ∧ ∃ left' os,
      (idleClock cfg.timeout).exec left (idleEvents fd s (.handle connects)) = some (left', os) ∧
        Ticks fd s' left' := by
  unfold handle at hhandle
  unfold idleEvents
  cases hdelivered : s.delivered with
  | nil => simp [hdelivered] at hhandle
  | cons e rest =>
      obtain ⟨d, events⟩ := e
      simp only [hdelivered] at hhandle
      simp only [List.head?_cons]
      have hmem : ∀ e ∈ rest, e ∈ s.delivered := fun e he => hdelivered ▸ List.mem_cons_of_mem _ he
      have h₁ : Filed { s with delivered := rest } := h.fewer hmem fun task htask => htask
      have hticks₁ : Ticks fd { s with delivered := rest } left := hticks
      obtain ⟨client, huser⟩ : ∃ client, ({ s with delivered := rest } : HttpServer J).users d =
          some client :=
        Option.isSome_iff_exists.mp (h.reported (d, events) (hdelivered ▸ List.mem_cons_self))
      have hfd := h.own d client huser
      have hserves : ∀ active : Prop, (¬ events.hangsUp = true ∧
          (events.epollin = true ∨ events.epollout = true) ↔ active) →
            Serves cfg d active { s with delivered := rest } s' → Filed s' ∧ ∃ left' os,
              (idleClock cfg.timeout).exec left (if d = fd ∧ ¬ events.hangsUp = true ∧
                (events.epollin = true ∨ events.epollout = true) then [.active] else []) =
                  some (left', os) ∧ Ticks fd s' left' := by
        intro active hactive hserves
        rw [← propext hactive] at hserves
        exact ⟨h₁.serves hserves, hticks₁.active hserves⟩
      split at hhandle
      · rename_i hhup
        unfold dealDisconnect at hhandle
        rw [if_neg (by rw [hstatic]; exact fun hand => absurd hand.1 Bool.false_ne_true)] at hhandle
        exact hserves False (iff_of_false (fun hand => hand.1 hhup) id)
          (closeConn_serves hstatic huser hfd hhandle).1
      rename_i hhup
      split at hhandle
      · rename_i hin
        exact hserves True (iff_of_true ⟨hhup, Or.inl hin⟩ trivial)
          (dealTask_serves hstatic htimeout huser hfd hhandle)
      rename_i hin
      split at hhandle
      · rename_i hout
        exact hserves True (iff_of_true ⟨hhup, Or.inr hout⟩ trivial)
          (dealTask_serves hstatic htimeout huser hfd hhandle)
      · rename_i hout
        obtain rfl := Option.some.inj hhandle
        refine ⟨h₁, left, [], ?_, hticks₁⟩
        rw [if_neg fun hand => hand.2.2.elim hin hout]
        rfl

theorem runTask_ticks {index : Nat} {w : TaskWorld} {left : Option Int} (h : Filed s)
    (hticks : Ticks fd s left) (hstatic : cfg.isSetProxy = false) (htimeout : 0 < cfg.timeout)
    (hrun : s.runTask cfg index w = some s') :
    Filed s' ∧ ∃ left' os,
      (idleClock cfg.timeout).exec left (idleEvents fd s (.run index w)) = some (left', os) ∧
        Ticks fd s' left' := by
  unfold runTask at hrun
  unfold idleEvents
  cases htask : s.tasks[index]? with
  | none => simp [htask] at hrun
  | some task =>
      simp only [htask] at hrun ⊢
      have hmem : task ∈ s.tasks := List.mem_of_getElem? htask
      obtain ⟨hsome, hdirect⟩ := h.queued task hmem
      obtain ⟨client, huser⟩ : ∃ client,
          ({ s with tasks := s.tasks.eraseIdx index } : HttpServer J).users task.user =
            some client := Option.isSome_iff_exists.mp hsome
      have hfd := h.own task.user client huser
      have h₁ : Filed { s with tasks := s.tasks.eraseIdx index } :=
        h.fewer (fun e he => he) fun task htask => List.mem_of_mem_eraseIdx htask
      have hticks₁ : Ticks fd { s with tasks := s.tasks.eraseIdx index } left := hticks
      have hserves : Serves cfg task.user (FinishesAnswer w task s)
          { s with tasks := s.tasks.eraseIdx index } s' := by
        cases hkind : task.kind with
        | onRead =>
            rw [hkind] at hrun
            have hnot : ¬ FinishesAnswer w task s := by
              rintro ⟨hwrite, -⟩
              rw [hkind] at hwrite
              cases hwrite
            rw [eq_false hnot]
            exact onRead_serves hstatic huser hfd hrun
        | onWrite =>
            rw [hkind] at hrun
            dsimp only at hrun
            exact onWrite_serves hstatic htimeout huser hfd hkind hdirect hrun
      exact ⟨h₁.serves hserves, hticks₁.active hserves⟩

theorem listen_ticks {accepts : List Accept} {left : Option Int} (h : Filed s)
    (hticks : Ticks fd s left) (hstatic : cfg.isSetProxy = false) (htimeout : 0 < cfg.timeout)
    (hlisten : s.dealListen cfg accepts = some s') :
    Filed s' ∧ ∃ left' os,
      (idleClock cfg.timeout).exec left (idleEvents fd s (.listen accepts)) = some (left', os) ∧
        Ticks fd s' left' := by
  obtain ⟨h', hnow, htimer⟩ := Filed.dealListen hstatic htimeout accepts h hlisten
  obtain ⟨os, hexec⟩ := idleClock_accepts cfg.timeout
    ((admitted s.userCount accepts).filter fun a => a.fd = fd) left
  refine ⟨h', _, os, hexec, ?_⟩
  rw [Ticks, htimer, hnow]
  by_cases hany : (admitted s.userCount accepts).any (·.fd = fd) = true
  · rw [if_pos hany, if_neg]
    · rfl
    · intro hnil
      obtain ⟨a, ha, hfd⟩ := List.any_eq_true.mp hany
      exact absurd hfd (List.filter_eq_nil_iff.mp hnil a ha)
  · rw [if_neg hany, if_pos]
    · exact hticks
    · apply List.filter_eq_nil_iff.mpr
      intro a ha hfd
      exact hany (List.any_eq_true.mpr ⟨a, ha, hfd⟩)

/-- What is delivered was watched. -/
theorem Filed.delivers {events : EpollEvents} (h : Filed s)
    (hdeliver : s.deliver fd events = some s') :
    Filed s' ∧ s'.timer = s.timer ∧ s'.now = s.now := by
  unfold deliver at hdeliver
  split at hdeliver
  · cases hdeliver
  rename_i r hr
  obtain ⟨-, heq⟩ := Option.ite_none_right_eq_some.mp hdeliver
  obtain rfl := Option.some.inj heq
  have hsome : (s.users fd).isSome = true := h.watched fd (by rw [hr]; rfl)
  refine ⟨⟨h.own, fun d hd => ?_, fun e he => ?_, h.queued, h.timers, h.timed⟩, rfl, rfl⟩
  · have hd : (Function.update s.epoll fd _ d).isSome = true := hd
    rw [Function.update_apply] at hd
    split at hd
    · rename_i heq
      rw [heq]
      exact hsome
    · exact h.watched d hd
  · rcases List.mem_append.mp he with hold | hnew
    · exact h.reported e hold
    · rw [List.mem_singleton.mp hnew]
      exact hsome

/-- Each descriptor has a clock of its own: only that of the one that expires stops. -/
theorem expire_ticks {d : Int} {left : Option Int} (h : Filed s) (hticks : Ticks fd s left)
    (hstatic : cfg.isSetProxy = false) (hexpire : s.expire cfg d = some s') :
    Filed s' ∧ ∃ left' os,
      (idleClock cfg.timeout).exec left (idleEvents fd s (.expire d)) = some (left', os) ∧
        Ticks fd s' left' := by
  obtain ⟨h', hnow, htimer, -, deadline, hold, hdue⟩ := h.expires hstatic hexpire
  refine ⟨h', ?_⟩
  simp only [idleEvents]
  by_cases hd : d = fd
  · subst hd
    rw [if_pos rfl]
    rw [hticks] at hold
    obtain ⟨ms, rfl, hms⟩ := Option.map_eq_some_iff.mp hold
    have hover : ms ≤ 0 := by
      have := (Prod.mk.inj hms).1
      omega
    refine ⟨none, [()], Machine.exec_cons_eq_some.mpr
      ⟨none, (), [], idleClock_step.mpr ?_, rfl, rfl⟩, ?_⟩
    · exact if_pos hover
    · rw [Ticks, htimer, Function.update_self]
      rfl
  · rw [if_neg hd]
    refine ⟨left, [], rfl, ?_⟩
    rw [Ticks, htimer, Function.update_of_ne (Ne.symm hd), hnow]
    exact hticks

theorem serverStep_ticks {step : ServerStep} {left : Option Int} (h : Filed s)
    (hticks : Ticks fd s left) (hstatic : cfg.isSetProxy = false) (htimeout : 0 < cfg.timeout)
    (hstep : serverStep cfg s step = some s') :
    Filed s' ∧ ∃ left' os,
      (idleClock cfg.timeout).exec left (idleEvents fd s step) = some (left', os) ∧
        Ticks fd s' left' := by
  cases step with
  | listen accepts => exact listen_ticks h hticks hstatic htimeout hstep
  | deliver d events =>
      obtain ⟨h', htimer, hnow⟩ := h.delivers hstep
      refine ⟨h', left, [], rfl, ?_⟩
      rw [Ticks, htimer, hnow]
      exact hticks
  | handle connects => exact handle_ticks h hticks hstatic htimeout hstep
  | run index w => exact runTask_ticks h hticks hstatic htimeout hstep
  | elapse ms =>
      obtain rfl := Option.some.inj hstep
      refine ⟨⟨h.own, h.watched, h.reported, h.queued, h.timers, h.timed⟩, _, _, rfl, ?_⟩
      show s.timer fd = _
      rw [hticks]
      cases left with
      | none => rfl
      | some ms' =>
          show some (s.now + ms', fd) = some (s.now + ms + (ms' - ms), fd)
          rw [add_assoc, add_sub_cancel]
  | expire d => exact expire_ticks h hticks hstatic hstep

theorem run_ticks (hstatic : cfg.isSetProxy = false) (htimeout : 0 < cfg.timeout)
    {steps : List ServerStep} {os : List Unit} (hrun : (server cfg).run steps = some (s, os))
    (fd : Int) :
    ∃ left os', (idleClock cfg.timeout).run (idleEventsAt cfg fd steps) = some (left, os') ∧
      Filed s ∧ Ticks fd s left := by
  refine Machine.exec_projects (A := idleClock cfg.timeout) (P := fun _ _ => True)
    (R := fun s left => Filed s ∧ Ticks fd s left) ?_ ⟨Filed.new, rfl⟩
    (Machine.meets_true _ _ _) hrun
  intro s₁ left step s₂ o h _ hstep
  obtain ⟨h', left', os', hexec, hticks⟩ :=
    serverStep_ticks h.1 h.2 hstatic htimeout (server_step.mp hstep)
  exact ⟨left', os', hexec, h', hticks⟩

/-- **The timers of the server are one clock for each client.** However clients, workers
and expiries interleave, the timer of a descriptor is what its own clock says, which runs
down by itself, starts again with what happens to that descriptor and with nothing else,
and stops when it expires. It runs for every connection that is open. -/
theorem timers_are_clocks (hstatic : cfg.isSetProxy = false) (htimeout : 0 < cfg.timeout)
    {steps : List ServerStep} {os : List Unit} (hrun : (server cfg).run steps = some (s, os))
    (fd : Int) :
    ∃ left os', (idleClock cfg.timeout).run (idleEventsAt cfg fd steps) = some (left, os') ∧
      s.timer fd = left.map (fun ms => (s.now + ms, fd)) ∧
      (s.isConnected fd = true → left.isSome = true) := by
  obtain ⟨left, os', hclock, hfiled, hticks⟩ := run_ticks hstatic htimeout hrun fd
  refine ⟨left, os', hclock, hticks, fun hconnected => ?_⟩
  have hsome := hfiled.timed fd hconnected
  rw [hticks, Option.isSome_map] at hsome
  exact hsome

/-- A minute. -/
def minuteSite : ServerConfig (Option HeaderMap) := { emptySite false with timeout := 60000 }

/-- Two clients; the first one sends a part of its request after twenty seconds. -/
def halfRequest : List ServerStep :=
  [.listen [⟨5, ⟨10, 0, 0, 7⟩, .noSocket⟩, ⟨6, ⟨10, 0, 0, 8⟩, .noSocket⟩], .elapse 20000,
    .deliver 5 EPOLLIN, .handle [], .run 0 (busyAfter (ascii "GET / HTT") 0), .elapse 50000]

theorem timers_are_clocks_half :
    ∃ s os, (server minuteSite).run halfRequest = some (s, os) ∧
      s.timer 5 = some (80000, 5) ∧ s.timer 6 = some (60000, 6) := by
  have hstate : (((server minuteSite).run halfRequest).bind fun r =>
      ((idleClock 60000).run (idleEventsAt minuteSite 5 halfRequest)).bind fun left₅ =>
        ((idleClock 60000).run (idleEventsAt minuteSite 6 halfRequest)).map fun left₆ =>
          (r.1.now, left₅.1, left₆.1)) = some (70000, some 10000, some (-10000)) := by
    decide +kernel
  obtain ⟨⟨s, os⟩, hrun, hstate⟩ := Option.bind_eq_some_iff.mp hstate
  obtain ⟨⟨left₅, os₅⟩, h₅, hstate⟩ := Option.bind_eq_some_iff.mp hstate
  obtain ⟨⟨left₆, os₆⟩, h₆, hstate⟩ := Option.map_eq_some_iff.mp hstate
  simp only [Prod.mk.injEq] at hstate
  obtain ⟨hnow, rfl, rfl⟩ := hstate
  obtain ⟨left, os', hclock, htimer, -⟩ :=
    timers_are_clocks (show minuteSite.isSetProxy = false from rfl) (by decide) hrun 5
  obtain ⟨rfl, -⟩ := Prod.mk.inj (Option.some.inj (h₅.symm.trans hclock))
  obtain ⟨left, os', hclock, htimer', -⟩ :=
    timers_are_clocks (show minuteSite.isSetProxy = false from rfl) (by decide) hrun 6
  obtain ⟨rfl, -⟩ := Prod.mk.inj (Option.some.inj (h₆.symm.trans hclock))
  rw [hnow] at htimer htimer'
  exact ⟨s, os, hrun, htimer, htimer'⟩

/-- **A client is closed when it has been idle for the timeout, and not before.** The timer
of a connection that is open is due when as much time has passed since the client was
accepted, an event of it was handled or an answer was out; it can expire just then, if no
events wait and `CloseConn` does not throw; and then the connection is closed. -/
theorem idle_timeout (hstatic : cfg.isSetProxy = false) (htimeout : 0 < cfg.timeout)
    {steps : List ServerStep} {os : List Unit} (hrun : (server cfg).run steps = some (s, os))
    (hconnected : s.isConnected fd = true) :
    ((serverStep cfg s (.expire fd)).isSome = true ↔ s.delivered = [] ∧
      cfg.timeout ≤ idleTime (idleEventsAt cfg fd steps) ∧ (s.closeConn cfg fd).isSome = true) ∧
    ∀ s', serverStep cfg s (.expire fd) = some s' → s'.isConnected fd = false := by
  obtain ⟨left, os', hclock, hfiled, hticks⟩ := run_ticks hstatic htimeout hrun fd
  have hsome := hfiled.timed fd hconnected
  rw [hticks, Option.isSome_map] at hsome
  obtain ⟨ms, rfl⟩ := Option.isSome_iff_exists.mp hsome
  have hleft := idleClock_left hclock ms rfl
  have htimer : s.timer fd = some (s.now + ms, fd) := hticks
  constructor
  · have hdue : s.now + ms ≤ s.now ↔ cfg.timeout ≤ idleTime (idleEventsAt cfg fd steps) := by
      rw [hleft]
      omega
    show (s.expire cfg fd).isSome = true ↔ _
    simp only [expire, htimer]
    split
    · rename_i hall
      cases s.closeConn cfg fd with
      | none => exact iff_of_false Bool.false_ne_true fun hand => Bool.false_ne_true hand.2.2
      | some s' => exact iff_of_true rfl ⟨hall.2.2, hdue.mp hall.2.1, rfl⟩
    · rename_i hnot
      refine iff_of_false Bool.false_ne_true fun hand => ?_
      exact hnot ⟨htimeout, hdue.mpr hand.2.1, hand.1⟩
  · intro s' hexpire
    exact (hfiled.expires hstatic hexpire).2.2.2.1

theorem idle_timeout_half :
    ∃ s os, (server minuteSite).run halfRequest = some (s, os) ∧
      (serverStep minuteSite s (.expire 5)).isSome = false ∧
      (serverStep minuteSite s (.expire 6)).isSome = true := by
  have hstate : ((server minuteSite).run halfRequest).map (fun r =>
      (r.1.isConnected 5, r.1.isConnected 6, decide (r.1.delivered = []),
        (r.1.closeConn minuteSite 6).isSome)) = some (true, true, true, true) := by
    decide +kernel
  obtain ⟨⟨s, os⟩, hrun, hstate⟩ := Option.map_eq_some_iff.mp hstate
  simp only [Prod.mk.injEq, decide_eq_true_eq] at hstate
  obtain ⟨h₅, h₆, hdelivered, hclose⟩ := hstate
  refine ⟨s, os, hrun, ?_, ?_⟩
  · apply Bool.eq_false_iff.mpr
    intro hexpire
    obtain ⟨-, hidle, -⟩ := (idle_timeout (show minuteSite.isSetProxy = false from rfl)
      (by decide) hrun h₅).1.mp hexpire
    exact absurd hidle (by decide +kernel)
  · exact (idle_timeout (show minuteSite.isSetProxy = false from rfl) (by decide) hrun h₆).1.mpr
      ⟨hdelivered, by decide +kernel, hclose⟩

end HttpServer

end WhiteWebServer
