import WhiteWebServer.HttpConn
import WhiteWebServer.TimerMap
import WhiteWebServer.Lib.Machine
import Mathlib.Data.List.Count

/-!
# The server

`HttpServer`: the event loop turns events into tasks, the tasks read, process and
write, and each says at its end which descriptor epoll is to watch next; a timer
closes what is idle. §1 epoll and the data; §2 closing; §3 the tasks; §4 the event
loop; §5 all runs. A handler of the event loop, the expiry of a timer and a task are
one step each. `HeapTimer` is the map it is to be. There is no step where the kernel
does not keep what it promises, nor behind an exception that ends the program.
-/

namespace WhiteWebServer

/-! ## §1  Data -/

/-- An epoll mask. -/
structure EpollEvents where
  epollin : Bool
  epollout : Bool
  epollrdhup : Bool
  epollhup : Bool
  epollerr : Bool
  epolloneshot : Bool
  epollet : Bool
  deriving DecidableEq

/-- `events & (EPOLLRDHUP | EPOLLHUP | EPOLLERR)` -/
def EpollEvents.hangsUp (events : EpollEvents) : Bool :=
  events.epollrdhup || events.epollhup || events.epollerr

def EPOLLIN : EpollEvents := ⟨true, false, false, false, false, false, false⟩
def EPOLLOUT : EpollEvents := { EPOLLIN with epollin := false, epollout := true }
def EPOLLRDHUP : EpollEvents := { EPOLLIN with epollin := false, epollrdhup := true }

/-- `conn_event_ | EPOLLIN` and `conn_event_ | EPOLLOUT` -/
def connEventIn : EpollEvents := ⟨true, false, true, false, false, true, true⟩
def connEventOut : EpollEvents := ⟨false, true, true, false, false, true, true⟩

structure Registration where
  events : EpollEvents
  enabled : Bool

/-- Epoll reports something, and nothing it was not asked for except HUP and ERR. -/
def Registration.Reports (r : Registration) (events : EpollEvents) : Prop :=
  (events.epollin || events.epollout || events.hangsUp) = true ∧
    (events.epollin → r.events.epollin) ∧ (events.epollout → r.events.epollout) ∧
    (events.epollrdhup → r.events.epollrdhup)

instance (r : Registration) (events : EpollEvents) : Decidable (r.Reports events) := by
  unfold Registration.Reports
  infer_instance

inductive TaskKind
  | onRead
  | onWrite
  deriving DecidableEq

/-- A task for the pool, bound to `users_[user]`. -/
structure Task where
  kind : TaskKind
  user : Int
  inProxy : Bool
  deriving DecidableEq

structure ServerConfig (J : Type) where
  isSetProxy : Bool
  /-- `timeout_`, in milliseconds; there are no timers where it is 0 -/
  timeout : Int
  webRoot : Bytes
  indexFile : Option (List Bytes)
  js : JsonCpp J
  junk : Int → Junk

/-- Whose an open descriptor is: that of the server, which has created it and not yet
handed it over, or that of `users_[user]`. -/
inductive Owner
  | server
  | conn (user : Int)
  deriving DecidableEq

/-- A call of `close`: for whom, and whose the descriptor was. -/
structure Closing where
  fd : Int
  closer : Owner
  owner : Option Owner
  deriving DecidableEq

structure HttpServer (J : Type) where
  users : Int → Option (HttpConn J)
  userCount : Nat
  proxyFdMap : Int → Option Int
  epoll : Int → Option Registration
  /-- the callback of an entry is `CloseConn` of a connection -/
  timer : TimerMap Int
  now : Int
  /-- of every open descriptor -/
  owner : Int → Option Owner
  closings : List Closing
  delivered : List (Int × EpollEvents)
  tasks : List Task

/-- What a task finds: what it reads, how the reading ends, what is accepted of what it
writes, the files, and the order in which headers are iterated. -/
structure TaskWorld where
  reads : List Bytes
  readRet : Int
  readError : Errno
  counts : List Nat
  last : HttpConn.WriteEnd
  fs : FileSystem
  entries : HeaderMap → List (Bytes × Bytes)

namespace HttpServer

variable {J : Type}

def kMaxFd : Nat := 65536

def new : HttpServer J :=
  { users := fun _ => none, userCount := 0, proxyFdMap := fun _ => none, epoll := fun _ => none,
    timer := fun _ => none, now := 0, owner := fun _ => none, closings := [], delivered := [],
    tasks := [] }

def openFds (s : HttpServer J) (fd : Int) : Bool := (s.owner fd).isSome

def setUser (fd : Int) (client : HttpConn J) (s : HttpServer J) : HttpServer J :=
  { s with users := Function.update s.users fd (some client) }

/-- `users_[fd]`, constructed where it is missing -/
def userAt (cfg : ServerConfig J) (fd : Int) (s : HttpServer J) :
    Option (HttpConn J × HttpServer J) :=
  match s.users fd with
  | some client => some (client, s)
  | none =>
      match HttpConn.new cfg.js (cfg.junk fd) with
      | .ok client => some (client, s.setUser fd client)
      | .error _ => none

/-- `AddFd` and `ModFd` -/
def watch (fd : Int) (events : EpollEvents) (s : HttpServer J) : HttpServer J :=
  { s with epoll := Function.update s.epoll fd (some { events := events, enabled := true }) }

def delFd (fd : Int) (s : HttpServer J) : HttpServer J :=
  { s with epoll := Function.update s.epoll fd none }

def openFd (fd : Int) (s : HttpServer J) : HttpServer J :=
  { s with owner := Function.update s.owner fd (some .server) }

/-- The descriptor is handed over to a connection. -/
def give (fd user : Int) (s : HttpServer J) : HttpServer J :=
  { s with owner := Function.update s.owner fd ((s.owner fd).map fun _ => .conn user) }

/-- `close(fd)`; a descriptor that is closed leaves epoll. -/
def closeFd (closer : Owner) (fd : Int) (s : HttpServer J) : HttpServer J :=
  { s with owner := Function.update s.owner fd none,
           closings := s.closings ++ [{ fd := fd, closer := closer, owner := s.owner fd }],
           epoll := Function.update s.epoll fd none }

/-- `timer_->AddTimer(fd, timeout_, ...)`, which is to close the connection -/
def addTimer (cfg : ServerConfig J) (fd : Int) (s : HttpServer J) : HttpServer J :=
  if cfg.timeout = 0 then s
  else { s with timer := Function.update s.timer fd (some (s.now + cfg.timeout, fd)) }

/-- `ExtentTime(client)` -/
def extentTime (cfg : ServerConfig J) (client : HttpConn J) (s : HttpServer J) : HttpServer J :=
  if cfg.timeout = 0 then s
  else
    let entry := (s.timer client.fd).map fun entry => (s.now + cfg.timeout, entry.2)
    { s with timer := Function.update s.timer client.fd entry }

def eraseProxy (proxyFd : Int) (s : HttpServer J) : HttpServer J :=
  { s with proxyFdMap := Function.update s.proxyFdMap proxyFd none }

/-- `proxy_fd_map_.emplace(proxy_fd, fd)`, which leaves an entry that is there -/
def emplaceProxy (proxyFd fd : Int) (s : HttpServer J) : HttpServer J :=
  match s.proxyFdMap proxyFd with
  | some _ => s
  | none => { s with proxyFdMap := Function.update s.proxyFdMap proxyFd (some fd) }

/-- `proxy_fd_map_[fd]`, 0 where it is missing -/
def proxyAt (fd : Int) (s : HttpServer J) : Int × HttpServer J :=
  match s.proxyFdMap fd with
  | some client => (client, s)
  | none => (0, { s with proxyFdMap := Function.update s.proxyFdMap fd (some 0) })

/-! ## §2  Closing -/

/-- `HttpConn::Close` with what it does around the connection. -/
def closeClient (cfg : ServerConfig J) (fd : Int) (client : HttpConn J) (s : HttpServer J) :
    Option (HttpServer J) :=
  match client.close cfg.js with
  | .error _ => none
  | .ok closed =>
      let s := s.setUser fd closed
      if client.isClose then some s
      else
        let s := { s with userCount := s.userCount - 1 }.closeFd (.conn fd) client.fd
        some (if client.proxyFd ≠ -1 then s.closeFd (.conn fd) client.proxyFd else s)

/-- `CloseConn(users_[fd])` -/
def closeConn (cfg : ServerConfig J) (fd : Int) (s : HttpServer J) : Option (HttpServer J) := do
  let (client, s) ← s.userAt cfg fd
  let s := s.delFd client.fd
  let s := if cfg.isSetProxy then (s.eraseProxy client.proxyFd).delFd client.proxyFd else s
  s.closeClient cfg fd client

/-! ## §3  The tasks -/

def onProcessStatic (cfg : ServerConfig J) (w : TaskWorld) (fd : Int) (client : HttpConn J)
    (s : HttpServer J) : Option (HttpServer J) :=
  match client.process cfg.js w.fs cfg.webRoot with
  | .error _ => none
  | .ok (.finish, client) => some ((s.setUser fd client).watch client.fd connEventOut)
  | .ok (.pending, client) => some ((s.setUser fd client).watch client.fd connEventIn)
  | .ok (.fail, client) => some ((s.setUser fd client).watch client.fd connEventIn)

def onProcessProxy (cfg : ServerConfig J) (w : TaskWorld) (fd : Int) (client : HttpConn J)
    (s : HttpServer J) : Option (HttpServer J) :=
  match client.processProxy cfg.js w.fs cfg.webRoot w.entries with
  | .error _ => none
  | .ok (.pendingWriteToProxyServer, client) =>
      some ((s.setUser fd client).watch client.proxyFd connEventOut)
  | .ok (.pendingWriteToClient, client) =>
      some ((s.setUser fd client).watch client.fd connEventOut)
  | .ok (_, client) => some (s.setUser fd client)

/-- `OnRead(users_[fd], in_proxy)`. `read_error` is what it was before where the last
read returned 0. -/
def onRead (cfg : ServerConfig J) (w : TaskWorld) (fd : Int) (s : HttpServer J) :
    Option (HttpServer J) := do
  let (client, s) ← s.userAt cfg fd
  let client := client.readFromFd w.reads
  if w.readRet ≤ 0 ∧ w.readError ≠ .eagain then (s.setUser fd client).closeConn cfg fd
  else if cfg.isSetProxy then s.onProcessProxy cfg w fd client
  else s.onProcessStatic cfg w fd client

/-- What `OnWrite` does when it has written. -/
def onWritten (cfg : ServerConfig J) (fd : Int) (inProxy : Bool) (write : HttpConn.WriteEnd)
    (client : HttpConn J) (s : HttpServer J) : Option (HttpServer J) :=
  if client.pendingWriteBytes = 0 ∧ inProxy then
    some ((s.extentTime cfg client).watch client.proxyFd connEventIn)
  else if client.pendingWriteBytes = 0 ∧ client.isKeepAlive then
    some ((s.extentTime cfg client).watch client.fd connEventIn)
  else if client.pendingWriteBytes ≠ 0 ∧ write.ret < 0 ∧ write.error = some .eagain then
    some (s.watch (if inProxy then client.proxyFd else client.fd) connEventOut)
  else if inProxy then some s
  else s.closeConn cfg fd

/-- `OnWrite(users_[fd], in_proxy)` -/
def onWrite (cfg : ServerConfig J) (w : TaskWorld) (fd : Int) (inProxy : Bool)
    (s : HttpServer J) : Option (HttpServer J) := do
  let (client, s) ← s.userAt cfg fd
  let (write, client) := client.writeToFd w.last w.counts
  (s.setUser fd client).onWritten cfg fd inProxy write client

/-- A thread of the pool takes a task and runs it. -/
def runTask (cfg : ServerConfig J) (index : Nat) (w : TaskWorld) (s : HttpServer J) :
    Option (HttpServer J) :=
  match s.tasks[index]? with
  | none => none
  | some task =>
      let s := { s with tasks := s.tasks.eraseIdx index }
      match task.kind with
      | .onRead => s.onRead cfg w task.user
      | .onWrite => s.onWrite cfg w task.user task.inProxy

/-! ## §4  The event loop -/

def addClient (cfg : ServerConfig J) (fd : Int) (addr : SockAddr) (proxyFd : Int)
    (s : HttpServer J) : Option (HttpServer J) := do
  let (client, s) ← s.userAt cfg fd
  let s := s.setUser fd (client.init fd addr proxyFd cfg.indexFile)
  let s := ({ s with userCount := s.userCount + 1 }.give fd fd).give proxyFd fd
  let s := (s.addTimer cfg fd).watch fd connEventIn
  some (if proxyFd ≠ -1 then (s.emplaceProxy proxyFd fd).watch proxyFd connEventIn else s)

/-- What `GetNewProxyFd` meets: no socket, a socket that cannot be connected, which
stays open, or a connected one. -/
inductive Connect
  | noSocket
  | refused (fd : Int)
  | connected (fd : Int)
  deriving DecidableEq

def Connect.failed : Connect → Bool
  | .connected _ => false
  | _ => true

/-- `GetNewProxyFd`. A descriptor that is open is not returned again. -/
def getNewProxyFd : Connect → HttpServer J → Option (Int × HttpServer J)
  | .noSocket, s => some (-1, s)
  | .refused fd, s => if fd < 0 ∨ s.openFds fd then none else some (-1, s.openFd fd)
  | .connected fd, s => if fd < 0 ∨ s.openFds fd then none else some (fd, s.openFd fd)

/-- What `accept` returns, and what `GetNewProxyFd` meets after it. -/
structure Accept where
  fd : Int
  addr : SockAddr
  connect : Connect

/-- `DealListen`. A descriptor that is open is not returned again. -/
def dealListen (cfg : ServerConfig J) : List Accept → HttpServer J → Option (HttpServer J)
  | [], s => some s
  | a :: rest, s =>
      if a.fd < 0 then some s
      else if s.openFds a.fd then none
      else
        let s := s.openFd a.fd
        -- `SendError` ends with `close`
        if s.userCount ≥ kMaxFd then some (s.closeFd .server a.fd)
        else if cfg.isSetProxy then do
          let (proxyFd, s) ← s.getNewProxyFd a.connect
          if proxyFd = -1 then dealListen cfg rest s
          else (s.addClient cfg a.fd a.addr proxyFd).bind (dealListen cfg rest)
        else (s.addClient cfg a.fd a.addr (-1)).bind (dealListen cfg rest)

/-- The loop of `DealDisconnect` over the calls of `GetNewProxyFd`. -/
def reconnect (cfg : ServerConfig J) (fd : Int) :
    Nat → List Connect → HttpServer J → Option (Int × HttpServer J)
  | _, [], _ => none
  | retryCount, connect :: rest, s => do
      let (newProxyFd, s) ← s.getNewProxyFd connect
      if newProxyFd = -1 then
        if retryCount + 1 > 5 then do
          let (clientFd, s) := s.proxyAt fd
          let s ← s.closeConn cfg clientFd
          reconnect cfg fd (retryCount + 1) rest s
        else reconnect cfg fd (retryCount + 1) rest s
      else some (newProxyFd, s)

def dealDisconnect (cfg : ServerConfig J) (connects : List Connect) (fd : Int)
    (s : HttpServer J) : Option (HttpServer J) :=
  if cfg.isSetProxy ∧ (s.proxyFdMap fd).isSome then do
    let (newProxyFd, s) ← s.reconnect cfg fd 0 connects
    -- the descriptor is closed for the connection it is looked up for next
    let s := (s.closeFd (.conn (s.proxyAt fd).1) fd).delFd fd
    let (clientFd, s) := s.proxyAt fd
    let (client, s) ← s.userAt cfg clientFd
    let s := (s.setUser clientFd (client.resetProxyFd newProxyFd)).give newProxyFd clientFd
    some (((s.eraseProxy fd).emplaceProxy newProxyFd clientFd).watch newProxyFd EPOLLIN)
  else s.closeConn cfg fd

/-- `DealRead` and `DealWrite` -/
def dealTask (cfg : ServerConfig J) (kind : TaskKind) (fd : Int) (s : HttpServer J) :
    Option (HttpServer J) := do
  let (user, inProxy) :=
    match if cfg.isSetProxy then s.proxyFdMap fd else none with
    | some client => (client, true)
    | none => (fd, false)
  let (client, s) ← s.userAt cfg user
  let s := s.extentTime cfg client
  some { s with tasks := s.tasks ++ [{ kind := kind, user := user, inProxy := inProxy }] }

/-- `epoll_wait` reports an event; EPOLLONESHOT disarms the descriptor. It is called when
the events it reported before are handled, and reports a descriptor once. -/
def deliver (fd : Int) (events : EpollEvents) (s : HttpServer J) : Option (HttpServer J) :=
  match s.epoll fd with
  | none => none
  | some r =>
      if r.enabled ∧ r.Reports events ∧ ∀ e ∈ s.delivered, e.1 ≠ fd then
        some { s with
          epoll := Function.update s.epoll fd (some { r with enabled := !r.events.epolloneshot })
          delivered := s.delivered ++ [(fd, events)] }
      else none

/-- The loop of `Run` turns to the next event. -/
def handle (cfg : ServerConfig J) (connects : List Connect) (s : HttpServer J) :
    Option (HttpServer J) :=
  match s.delivered with
  | [] => none
  | (fd, events) :: rest =>
      let s := { s with delivered := rest }
      if events.hangsUp then s.dealDisconnect cfg connects fd
      else if events.epollin then s.dealTask cfg .onRead fd
      else if events.epollout then s.dealTask cfg .onWrite fd
      else some s

/-- `NextTickTime` finds a timer that is due, before `epoll_wait` is called. -/
def expire (cfg : ServerConfig J) (fd : Int) (s : HttpServer J) : Option (HttpServer J) :=
  match s.timer fd with
  | none => none
  | some (deadline, user) =>
      if 0 < cfg.timeout ∧ deadline ≤ s.now ∧ s.delivered = [] then do
        let s ← s.closeConn cfg user
        some { s with timer := Function.update s.timer fd none }
      else none

/-! ## §5  Runs -/

inductive ServerStep
  | listen (accepts : List Accept)
  | deliver (fd : Int) (events : EpollEvents)
  | handle (connects : List Connect)
  | run (index : Nat) (w : TaskWorld)
  | elapse (ms : Nat)
  | expire (fd : Int)

def serverStep (cfg : ServerConfig J) (s : HttpServer J) : ServerStep → Option (HttpServer J)
  | .listen accepts => s.dealListen cfg accepts
  | .deliver fd events => s.deliver fd events
  | .handle connects => s.handle cfg connects
  | .run index w => s.runTask cfg index w
  | .elapse ms => some { s with now := s.now + ms }
  | .expire fd => s.expire cfg fd

def server (cfg : ServerConfig J) : Machine (HttpServer J) ServerStep Unit where
  init := new
  step s step := (serverStep cfg s step).map (·, ())

theorem server_step {s s' : HttpServer J} {step : ServerStep} {o : Unit} :
    (server cfg).step s step = some (s', o) ↔ serverStep cfg s step = some s' :=
  Machine.map_unit_eq_some

/-! ## §6  Tokens -/

/-- Epoll will report the descriptor. -/
def armed (fd : Int) (s : HttpServer J) : Nat :=
  match s.epoll fd with
  | some r => if r.enabled then 1 else 0
  | none => 0

/-- Events of the descriptor that are delivered and not handled. -/
def unhandled (fd : Int) (s : HttpServer J) : Nat := s.delivered.countP (fun e => e.1 = fd)

/-- Tasks of a connection that are queued or running. -/
def outstanding (fd : Int) (s : HttpServer J) : Nat := s.tasks.countP (fun task => task.user = fd)

def isConnected (fd : Int) (s : HttpServer J) : Bool :=
  match s.users fd with
  | some client => client.isConnected
  | none => false

/-- The write took all there was. -/
def WroteAll (w : TaskWorld) (client : HttpConn J) : Prop :=
  (client.writeToFd w.last w.counts).2.pendingWriteBytes = 0

/-- The write found the socket busy with something left. -/
def WouldBlock (w : TaskWorld) (client : HttpConn J) : Prop :=
  (client.writeToFd w.last w.counts).2.pendingWriteBytes ≠ 0 ∧
    (client.writeToFd w.last w.counts).1.ret < 0 ∧
    (client.writeToFd w.last w.counts).1.error = some .eagain

variable {cfg : ServerConfig J} {s s' : HttpServer J} {fd : Int} {client client' : HttpConn J}

@[simp] theorem setUser_users_self : (s.setUser fd client).users fd = some client :=
  Function.update_self ..

theorem setUser_users_other {d : Int} (hd : d ≠ fd) :
    (s.setUser fd client).users d = s.users d := Function.update_of_ne hd ..

@[simp] theorem watch_epoll_self (events : EpollEvents) :
    (s.watch fd events).epoll fd = some { events := events, enabled := true } :=
  Function.update_self ..

theorem watch_epoll_other {d : Int} (events : EpollEvents) (hd : d ≠ fd) :
    (s.watch fd events).epoll d = s.epoll d := Function.update_of_ne hd ..

theorem armed_watch_self (events : EpollEvents) : (s.watch fd events).armed fd = 1 := by
  simp [armed, watch]

theorem armed_of_epoll_eq (h : s'.epoll fd = s.epoll fd) : s'.armed fd = s.armed fd := by
  rw [armed, armed, h]

theorem armed_of_none (h : s.epoll fd = none) : s.armed fd = 0 := by
  rw [armed, h]

theorem armed_watch_other {d : Int} (events : EpollEvents) (hd : d ≠ fd) :
    (s.watch fd events).armed d = s.armed d :=
  armed_of_epoll_eq (watch_epoll_other events hd)

theorem isConnected_of_users_eq {d : Int} (h : s'.users d = s.users d) :
    s'.isConnected d = s.isConnected d := by
  rw [isConnected, isConnected, h]

theorem isConnected_of_user (h : s.users fd = some client) (hopen : client.isClose = false) :
    s.isConnected fd = true := by
  simp [isConnected, h, HttpConn.isConnected, hopen]

theorem isConnected_iff :
    s.isConnected fd = true ↔ ∃ client, s.users fd = some client ∧ client.isClose = false := by
  unfold isConnected HttpConn.isConnected
  cases s.users fd with
  | none => simp
  | some client => simp

theorem userAt_of_user (h : s.users fd = some client) : s.userAt cfg fd = some (client, s) := by
  rw [userAt, h]

theorem onWrite_of_user {w : TaskWorld} {inProxy : Bool} {write : HttpConn.WriteEnd}
    (huser : s.users fd = some client)
    (hwrite : client.writeToFd w.last w.counts = (write, client')) :
    s.onWrite cfg w fd inProxy = (s.setUser fd client').onWritten cfg fd inProxy write client' := by
  unfold onWrite
  rw [userAt_of_user huser, Option.bind_eq_bind, Option.bind_some]
  dsimp only
  rw [hwrite]

/-- A task leaves the queue. -/
theorem countP_eraseIdx {index : Nat} {task : Task} (h : s.tasks[index]? = some task)
    (p : Task → Bool) :
    s.tasks.countP p = (s.tasks.eraseIdx index).countP p + if p task then 1 else 0 := by
  obtain ⟨hi, htask⟩ := List.getElem?_eq_some_iff.mp h
  have hperm := (List.getElem_cons_eraseIdx_perm hi).countP_eq p
  rw [htask, List.countP_cons] at hperm
  exact hperm.symm

/-- What `CloseConn` does to an open connection. -/
structure Closed (cfg : ServerConfig J) (fd : Int) (client : HttpConn J) (s s' : HttpServer J) :
    Prop where
  users : ∃ closed : HttpConn J, s'.users = Function.update s.users fd (some closed) ∧
    closed.isClose = true ∧ closed.fd = client.fd
  epoll : ∀ d, s'.epoll d = if d = client.fd ∨
    (d = client.proxyFd ∧ (cfg.isSetProxy = true ∨ client.proxyFd ≠ -1)) then none else s.epoll d
  owner : ∀ d, s'.owner d = if d = client.fd ∨ (d = client.proxyFd ∧ client.proxyFd ≠ -1)
    then none else s.owner d
  closings : s'.closings = s.closings ++ ⟨client.fd, .conn fd, s.owner client.fd⟩ ::
    if client.proxyFd ≠ -1 then
      [⟨client.proxyFd, .conn fd, Function.update s.owner client.fd none client.proxyFd⟩] else []
  proxyFdMap : s'.proxyFdMap = if cfg.isSetProxy then
    Function.update s.proxyFdMap client.proxyFd none else s.proxyFdMap
  timer : s'.timer = s.timer
  now : s'.now = s.now
  delivered : s'.delivered = s.delivered
  tasks : s'.tasks = s.tasks

theorem closeConn_closed (hclose : s.closeConn cfg fd = some s') (huser : s.users fd = some client)
    (hopen : client.isClose = false) : Closed cfg fd client s s' := by
  unfold closeConn at hclose
  rw [userAt_of_user huser] at hclose
  simp only [bind, Option.bind, closeClient] at hclose
  cases hclosed : client.close cfg.js with
  | error e => simp [hclosed] at hclose
  | ok closed =>
      obtain ⟨hisClose, hfd, -⟩ := HttpConn.close_kept hclosed
      simp only [hclosed, hopen, Bool.false_eq_true, if_false, Option.some.injEq] at hclose
      subst hclose
      constructor
      case users =>
        refine ⟨closed, ?_, hisClose, hfd⟩
        split <;> split <;> rfl
      case epoll =>
        intro d
        by_cases hp : client.proxyFd = -1 <;> cases hset : cfg.isSetProxy <;>
          by_cases hd : d = client.fd <;> by_cases hdp : d = client.proxyFd <;>
            simp [closeFd, delFd, setUser, eraseProxy, Function.update_apply, hp, hd, hdp]
      case owner =>
        intro d
        by_cases hp : client.proxyFd = -1 <;> cases hset : cfg.isSetProxy <;>
          by_cases hd : d = client.fd <;> by_cases hdp : d = client.proxyFd <;>
            simp [closeFd, delFd, setUser, eraseProxy, Function.update_apply, hp, hd, hdp]
      case closings =>
        by_cases hp : client.proxyFd = -1 <;> cases hset : cfg.isSetProxy <;>
          simp [closeFd, delFd, setUser, eraseProxy, hp]
      case proxyFdMap => split <;> split <;> rfl
      case timer => split <;> split <;> rfl
      case now => split <;> split <;> rfl
      case delivered => split <;> split <;> rfl
      case tasks => split <;> split <;> rfl

theorem closeConn_user (hclose : s.closeConn cfg fd = some s') (huser : s.users fd = some client)
    (hopen : client.isClose = false) :
    ∃ closed, s'.users fd = some closed ∧ closed.isClose = true ∧
      closed.proxyFd = client.proxyFd := by
  unfold closeConn at hclose
  rw [userAt_of_user huser] at hclose
  simp only [bind, Option.bind, closeClient] at hclose
  cases hclosed : client.close cfg.js with
  | error e => simp [hclosed] at hclose
  | ok closed =>
      obtain ⟨hisClose, -, hproxyFd⟩ := HttpConn.close_kept hclosed
      simp only [hclosed, hopen, Bool.false_eq_true, if_false, Option.some.injEq] at hclose
      subst hclose
      refine ⟨closed, ?_, hisClose, hproxyFd⟩
      split <;> split <;> exact Function.update_self ..

theorem Closed.openFds (h : Closed cfg fd client s s') (d : Int) :
    s'.openFds d = if d = client.fd ∨ (d = client.proxyFd ∧ client.proxyFd ≠ -1)
      then false else s.openFds d := by
  rw [HttpServer.openFds, h.owner d]
  split <;> rfl

/-- What `AddClient` does. -/
structure Added (cfg : ServerConfig J) (fd proxyFd : Int) (s s' : HttpServer J) : Prop where
  users : ∃ client : HttpConn J, s'.users = Function.update s.users fd (some client) ∧
    client.fd = fd ∧ client.proxyFd = proxyFd ∧ client.isClose = false ∧
    client.proxyProcessState = .pendingReadFromClient
  userCount : s'.userCount = s.userCount + 1
  epoll : s'.epoll = if proxyFd ≠ -1 then ((s.watch fd connEventIn).watch proxyFd connEventIn).epoll
    else (s.watch fd connEventIn).epoll
  proxyFdMap : s'.proxyFdMap = if proxyFd ≠ -1 then (s.emplaceProxy proxyFd fd).proxyFdMap
    else s.proxyFdMap
  owner : s'.owner = ((s.give fd fd).give proxyFd fd).owner
  closings : s'.closings = s.closings
  timer : s'.timer = (s.addTimer cfg fd).timer
  now : s'.now = s.now
  delivered : s'.delivered = s.delivered
  tasks : s'.tasks = s.tasks

theorem emplaceProxy_eq (proxyFd fd : Int) (s : HttpServer J) :
    s.emplaceProxy proxyFd fd =
      { s with proxyFdMap := (s.emplaceProxy proxyFd fd).proxyFdMap } := by
  unfold emplaceProxy
  split <;> rfl

theorem addTimer_eq (cfg : ServerConfig J) (fd : Int) (s : HttpServer J) :
    s.addTimer cfg fd = { s with timer := (s.addTimer cfg fd).timer } := by
  unfold addTimer
  split <;> rfl

theorem extentTime_eq (cfg : ServerConfig J) (client : HttpConn J) (s : HttpServer J) :
    s.extentTime cfg client = { s with timer := (s.extentTime cfg client).timer } := by
  unfold extentTime
  split <;> rfl

theorem extentTime_off (h : cfg.timeout = 0) (client : HttpConn J) (s : HttpServer J) :
    s.extentTime cfg client = s := if_pos h

theorem expire_off (h : cfg.timeout = 0) (fd : Int) (s : HttpServer J) : s.expire cfg fd = none := by
  unfold expire
  split
  · rfl
  · rw [if_neg fun hand => absurd hand.1 (by rw [h]; exact lt_irrefl 0)]

/-- The descriptors that are open stay so when they are handed over. -/
@[simp] theorem openFds_give (fd user d : Int) (s : HttpServer J) :
    (s.give fd user).openFds d = s.openFds d := by
  unfold openFds give
  by_cases hd : d = fd
  · subst hd
    simp
  · simp [Function.update_of_ne hd]

theorem openFds_openFd (fd d : Int) (s : HttpServer J) :
    (s.openFd fd).openFds d = if d = fd then true else s.openFds d := by
  unfold openFds openFd
  by_cases hd : d = fd
  · subst hd
    simp
  · simp [hd]

theorem openFds_closeFd (closer : Owner) (fd d : Int) (s : HttpServer J) :
    (s.closeFd closer fd).openFds d = if d = fd then false else s.openFds d := by
  unfold openFds closeFd
  by_cases hd : d = fd
  · subst hd
    simp
  · simp [hd]

theorem addClient_added {addr : SockAddr} {proxyFd : Int}
    (hadd : s.addClient cfg fd addr proxyFd = some s') : Added cfg fd proxyFd s s' := by
  unfold addClient at hadd
  have huser : ∃ (client : HttpConn J) (users : Int → Option (HttpConn J)),
      s.userAt cfg fd = some (client, { s with users := users }) ∧
        ∀ c, Function.update users fd (some c) = Function.update s.users fd (some c) := by
    unfold userAt at hadd ⊢
    cases hu : s.users fd with
    | some client => exact ⟨client, s.users, rfl, fun _ => rfl⟩
    | none =>
        cases hnew : HttpConn.new cfg.js (cfg.junk fd) with
        | error e => simp [hu, hnew] at hadd
        | ok client => exact ⟨client, _, rfl, fun _ => Function.update_idem ..⟩
  obtain ⟨client, users, hat, hupdate⟩ := huser
  rw [hat] at hadd
  simp only [bind, Option.bind, Option.some.injEq] at hadd
  subst hadd
  rw [addTimer_eq, emplaceProxy_eq]
  constructor
  case users =>
    refine ⟨client.init fd addr proxyFd cfg.indexFile, ?_, rfl, rfl, rfl, rfl⟩
    split <;> exact hupdate _
  case epoll => split <;> rfl
  case proxyFdMap =>
    split
    · simp only [emplaceProxy, setUser, HttpServer.watch, give]
      split <;> rfl
    · rfl
  case timer =>
    split <;> (simp only [addTimer]; split <;> rfl)
  all_goals split <;> rfl

theorem addClient_user {addr : SockAddr} {proxyFd : Int} {s₁ : HttpServer J}
    (hadd : s.addClient cfg fd addr proxyFd = some s') (hat : s.userAt cfg fd = some (client, s₁)) :
    s'.users fd = some (client.init fd addr proxyFd cfg.indexFile) := by
  unfold addClient at hadd
  rw [hat] at hadd
  simp only [bind, Option.bind, Option.some.injEq] at hadd
  subst hadd
  rw [addTimer_eq, emplaceProxy_eq]
  split <;> exact Function.update_self ..

theorem Added.openFds {proxyFd : Int} (h : Added cfg fd proxyFd s s') (d : Int) :
    s'.openFds d = s.openFds d := by
  rw [HttpServer.openFds, h.owner]
  exact (openFds_give proxyFd fd d _).trans (openFds_give fd fd d s)

/-- Descriptors were opened, and nothing else. -/
structure Opened (s s' : HttpServer J) : Prop where
  same : s' = { s with owner := s'.owner }
  kept : ∀ d, s.openFds d = true → s'.owner d = s.owner d

theorem Opened.refl (s : HttpServer J) : Opened s s := ⟨rfl, fun _ _ => rfl⟩

theorem Opened.openFds (h : Opened s s') {d : Int} (hd : s.openFds d = true) :
    s'.openFds d = true := by
  rw [HttpServer.openFds, h.kept d hd]
  exact hd

theorem Opened.trans {s'' : HttpServer J} (h₁ : Opened s s') (h₂ : Opened s' s'') :
    Opened s s'' := by
  refine ⟨?_, fun d hd => (h₂.kept d (h₁.openFds hd)).trans (h₁.kept d hd)⟩
  rw [h₂.same, h₁.same]

theorem openFd_opened (hfree : s.openFds fd = false) : Opened s (s.openFd fd) := by
  refine ⟨rfl, fun d hd => Function.update_of_ne ?_ ..⟩
  rintro rfl
  rw [hfree] at hd
  cases hd

theorem getNewProxyFd_opened {connect : Connect} {new : Int}
    (h : s.getNewProxyFd connect = some (new, s')) :
    Opened s s' ∧ (connect.failed = true ↔ new = -1) ∧
      (new ≠ -1 → s.openFds new = false ∧ s'.owner new = some .server) := by
  cases connect with
  | noSocket =>
      obtain ⟨rfl, rfl⟩ := Prod.mk.inj (Option.some.inj h)
      exact ⟨Opened.refl s, by simp [Connect.failed], fun hne => absurd rfl hne⟩
  | refused d =>
      simp only [getNewProxyFd, Option.ite_none_left_eq_some, not_or, Bool.not_eq_true,
        Option.some.injEq, Prod.mk.injEq] at h
      obtain ⟨⟨-, hfree⟩, rfl, rfl⟩ := h
      exact ⟨openFd_opened hfree, by simp [Connect.failed], fun hne => absurd rfl hne⟩
  | connected d =>
      simp only [getNewProxyFd, Option.ite_none_left_eq_some, not_or, Bool.not_eq_true,
        Option.some.injEq, Prod.mk.injEq] at h
      obtain ⟨⟨hneg, hfree⟩, rfl, rfl⟩ := h
      refine ⟨openFd_opened hfree, ?_, fun _ => ⟨hfree, Function.update_self ..⟩⟩
      simp only [Connect.failed, Bool.false_eq_true, false_iff]
      omega

theorem getNewProxyFd_connected {connect : Connect} {new : Int}
    (h : s.getNewProxyFd connect = some (new, s')) (hne : new ≠ -1) : s' = s.openFd new := by
  cases connect with
  | noSocket => exact absurd (Prod.mk.inj (Option.some.inj h)).1.symm hne
  | refused d =>
      simp only [getNewProxyFd, Option.ite_none_left_eq_some, Option.some.injEq, Prod.mk.injEq] at h
      exact absurd h.2.1.symm hne
  | connected d =>
      simp only [getNewProxyFd, Option.ite_none_left_eq_some, Option.some.injEq, Prod.mk.injEq] at h
      obtain ⟨-, rfl, rfl⟩ := h
      rfl

/-- As long as it does not give up, the loop opens descriptors only. -/
theorem reconnect_opened {p new : Int} :
    ∀ (connects : List Connect) (retryCount : Nat) {s : HttpServer J},
      retryCount + (connects.takeWhile Connect.failed).length ≤ 5 →
        s.reconnect cfg p retryCount connects = some (new, s') →
          Opened s s' ∧ new ≠ -1 ∧ s.openFds new = false ∧ s'.owner new = some .server := by
  intro connects
  induction connects with
  | nil =>
      intro retryCount s _ hreconnect
      cases hreconnect
  | cons connect rest ih =>
      intro retryCount s hretries hreconnect
      rw [HttpServer.reconnect] at hreconnect
      obtain ⟨⟨fd, s₁⟩, hget, hreconnect⟩ := Option.bind_eq_some_iff.mp hreconnect
      obtain ⟨hopened, hfailed, hnew⟩ := getNewProxyFd_opened hget
      dsimp only at hreconnect
      by_cases hfail : fd = -1
      · rw [List.takeWhile_cons_of_pos (hfailed.mpr hfail), List.length_cons] at hretries
        rw [if_pos hfail, if_neg (by omega)] at hreconnect
        obtain ⟨hrest, hne, hfree, howner⟩ := ih (retryCount + 1) (by omega) hreconnect
        refine ⟨hopened.trans hrest, hne, ?_, howner⟩
        -- what was opened on the way is not returned
        apply Bool.eq_false_iff.mpr
        intro hwas
        rw [hopened.openFds hwas] at hfree
        cases hfree
      · rw [if_neg hfail] at hreconnect
        obtain ⟨rfl, rfl⟩ := Prod.mk.inj (Option.some.inj hreconnect)
        exact ⟨hopened, hfail, hnew hfail⟩

/-- What `DealDisconnect` does to a connection whose backend is gone, `s₁` being the state
behind its loop. -/
structure Reconnected (p fd new : Int) (client : HttpConn J) (s s₁ s' : HttpServer J) : Prop where
  opened : Opened s s₁
  fresh : new ≠ -1 ∧ s.openFds new = false
  users : s'.users = Function.update s.users fd (some (client.resetProxyFd new))
  epoll : s'.epoll = Function.update (Function.update s.epoll p none) new
    (some { events := EPOLLIN, enabled := true })
  owner : s'.owner = Function.update (Function.update s₁.owner p none) new (some (.conn fd))
  closings : s'.closings = s.closings ++ [⟨p, .conn fd, s.owner p⟩]
  proxyFdMap : s'.proxyFdMap = Function.update (Function.update s.proxyFdMap p none) new (some fd)
  timer : s'.timer = s.timer
  now : s'.now = s.now
  delivered : s'.delivered = s.delivered
  tasks : s'.tasks = s.tasks

theorem dealDisconnect_reconnected {p : Int} {connects : List Connect}
    (hproxy : cfg.isSetProxy = true) (hmap : s.proxyFdMap p = some fd)
    (huser : s.users fd = some client) (hfree : ∀ d, s.openFds d = false → s.proxyFdMap d = none)
    (hopen : s.openFds p = true) (hretries : (connects.takeWhile Connect.failed).length ≤ 5)
    (hdeal : s.dealDisconnect cfg connects p = some s') :
    ∃ new s₁, s.reconnect cfg p 0 connects = some (new, s₁) ∧
      Reconnected p fd new client s s₁ s' := by
  unfold dealDisconnect at hdeal
  rw [if_pos ⟨hproxy, by rw [hmap]; rfl⟩] at hdeal
  cases hreconnect : s.reconnect cfg p 0 connects with
  | none => simp [hreconnect] at hdeal
  | some result =>
      obtain ⟨new, s₁⟩ := result
      obtain ⟨hopened, hne, hnew, howner⟩ := reconnect_opened connects 0 (by omega) hreconnect
      have hnp : new ≠ p := by
        rintro rfl
        rw [hopen] at hnew
        cases hnew
      have hs₁ := hopened.same
      have hmap₁ : s₁.proxyFdMap p = some fd := by
        rw [hs₁]
        exact hmap
      have hproxyAt₁ : s₁.proxyAt p = (fd, s₁) := by
        rw [proxyAt, hmap₁]
      have hproxyAt : ∀ closer, proxyAt p ((s₁.closeFd closer p).delFd p) =
          (fd, (s₁.closeFd closer p).delFd p) := by
        intro closer
        rw [proxyAt, show (((s₁.closeFd closer p).delFd p).proxyFdMap p) = some fd from hmap₁]
      have huserAt : ∀ closer, userAt cfg fd ((s₁.closeFd closer p).delFd p) =
          some (client, (s₁.closeFd closer p).delFd p) := by
        intro closer
        apply userAt_of_user
        rw [show ((s₁.closeFd closer p).delFd p).users fd = s₁.users fd from rfl, hs₁]
        exact huser
      simp only [hreconnect, bind, Option.bind, hproxyAt₁, hproxyAt, huserAt,
        Option.some.injEq] at hdeal
      subst hdeal
      have hmissing : Function.update s.proxyFdMap p none new = none := by
        rw [Function.update_of_ne hnp]
        exact hfree new hnew
      refine ⟨new, s₁, rfl, ?_⟩
      have hp := hopened.kept p hopen
      constructor
      case opened => exact hopened
      case fresh => exact ⟨hne, hnew⟩
      case owner =>
        rw [emplaceProxy_eq]
        simp only [eraseProxy, give, setUser, delFd, closeFd, HttpServer.watch,
          Function.update_of_ne hnp, howner, Option.map_some]
      case closings =>
        rw [emplaceProxy_eq]
        simp only [eraseProxy, give, setUser, delFd, closeFd, HttpServer.watch, hp]
        rw [hs₁]
      all_goals
        rw [hs₁]
        simp only [emplaceProxy, eraseProxy, give, setUser, delFd, closeFd, hmissing,
          HttpServer.watch, Function.update_idem]

end HttpServer

end WhiteWebServer
