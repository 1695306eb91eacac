import WhiteWebServer.Lib.Projection
import WhiteWebServer.StaticTokens
import WhiteWebServer.Answers
import WhiteWebServer.ConnRuns

/-!
# One connection of the static server

What the server does with one descriptor while it serves all the others. §1 the
descriptor by itself: it is accepted, and then reads until there is an answer,
writes until that is out, and reads again; §2 what each step of the server is
for it; §3 the tokens say which of the two it is at; §4 every run of the server
is, for each descriptor, a run of §1, so that no connection has a part in what
another one receives.
-/

namespace WhiteWebServer

open HttpConn

variable {J : Type}

/-! ## §1  One descriptor -/

inductive Phase
  | closed
  | reading
  | writing
  deriving DecidableEq

/-- What epoll watches for. -/
def Phase.events : Phase → EpollEvents
  | .writing => connEventOut
  | _ => connEventIn

/-- The task an event becomes. -/
def Phase.kind : Phase → TaskKind
  | .writing => .onWrite
  | _ => .onRead

/-- The bytes `Process` has scheduled, and the files it found. -/
structure Answer where
  fs : FileSystem
  bytes : Bytes

/-- The phase such a task is for. -/
def TaskKind.phase : TaskKind → Phase
  | .onRead => .reading
  | .onWrite => .writing

/-- The connection object, once there is one, and since `accept`: what has come
from the client, what the socket has been handed, and the answers. -/
structure Dialogue (J : Type) where
  conn : Option (HttpConn J)
  phase : Phase
  received : Bytes
  sent : Bytes
  answers : List Answer

inductive DialogueEvent
  | accept (addr : SockAddr)
  | read (w : TaskWorld)
  | write (w : TaskWorld)
  | hangUp

def TaskKind.event (w : TaskWorld) : TaskKind → DialogueEvent
  | .onRead => .read w
  | .onWrite => .write w

namespace Dialogue

def new : Dialogue J :=
  { conn := none, phase := .closed, received := [], sent := [], answers := [] }

def close (cfg : ServerConfig J) (client : HttpConn J) (x : Dialogue J) : Option (Dialogue J) :=
  match client.close cfg.js with
  | .error _ => none
  | .ok closed => some { x with conn := some closed, phase := .closed }

/-- The object of a descriptor that was used before is used again. -/
def object (cfg : ServerConfig J) (fd : Int) (x : Dialogue J) : Except Fault (HttpConn J) :=
  match x.conn with
  | some client => .ok client
  | none => HttpConn.new cfg.js (cfg.junk fd)

def accept (cfg : ServerConfig J) (fd : Int) (addr : SockAddr) (x : Dialogue J) :
    Option (Dialogue J) :=
  match x.object cfg fd with
  | .error _ => none
  | .ok client =>
      some { conn := some (client.init fd addr (-1) cfg.indexFile), phase := .reading,
             received := [], sent := [], answers := [] }

def read (cfg : ServerConfig J) (w : TaskWorld) (client : HttpConn J) (x : Dialogue J) :
    Option (Dialogue J) :=
  let client := client.readFromFd w.reads
  let x := { x with received := x.received ++ w.reads.flatten }
  if w.readRet ≤ 0 ∧ w.readError ≠ .eagain then x.close cfg client
  else
    match client.process cfg.js w.fs cfg.webRoot with
    | .error _ => none
    | .ok (.finish, client) =>
        client.offered.map fun bytes =>
          { x with conn := some client, phase := .writing, answers := x.answers ++ [⟨w.fs, bytes⟩] }
    | .ok (_, client) => some { x with conn := some client }

def write (cfg : ServerConfig J) (w : TaskWorld) (client : HttpConn J) (x : Dialogue J) :
    Option (Dialogue J) :=
  match handedOver w.counts client with
  | none => none
  | some bytes =>
      let (write, client) := client.writeToFd w.last w.counts
      let x := { x with conn := some client, sent := x.sent ++ bytes }
      if client.pendingWriteBytes = 0 ∧ client.isKeepAlive then some { x with phase := .reading }
      else if client.pendingWriteBytes ≠ 0 ∧ write.ret < 0 ∧ write.error = some .eagain then some x
      else x.close cfg client

def step (cfg : ServerConfig J) (fd : Int) (x : Dialogue J) : DialogueEvent → Option (Dialogue J)
  | .accept addr => if x.phase = .closed then x.accept cfg fd addr else none
  | .read w => if x.phase = .reading then x.conn.bind fun client => x.read cfg w client else none
  | .write w => if x.phase = .writing then x.conn.bind fun client => x.write cfg w client else none
  | .hangUp => if x.phase = .closed then none else x.conn.bind fun client => x.close cfg client

end Dialogue

def Dialogue.machine (cfg : ServerConfig J) (fd : Int) :
    Machine (Dialogue J) DialogueEvent Unit where
  init := .new
  step x event := (x.step cfg fd event).map (·, ())

/-! ## §2  What a step of the server is -/

namespace HttpServer

variable {cfg : ServerConfig J} {s s' : HttpServer J} {fd : Int} {client client' : HttpConn J}
  {x : Dialogue J}

/-- The connections that `DealListen` takes in: until `accept` has no more, or the server
is full. -/
def admitted : Nat → List Accept → List Accept
  | _, [] => []
  | userCount, a :: rest =>
      if a.fd < 0 ∨ kMaxFd ≤ userCount then [] else a :: admitted (userCount + 1) rest

def dialogueEvents (fd : Int) (s : HttpServer J) : ServerStep → List DialogueEvent
  | .listen accepts =>
      ((admitted s.userCount accepts).filter fun a => a.fd = fd).map fun a => .accept a.addr
  | .handle _ =>
      match s.delivered.head? with
      | some e => if e.1 = fd ∧ e.2.hangsUp then [.hangUp] else []
      | none => []
  | .run index w =>
      match s.tasks[index]? with
      | some task =>
          if task.user = fd then [task.kind.event w] else []
      | none => []
  | _ => []

/-- What the steps of a run are for the descriptor `fd`. -/
def eventsAt (cfg : ServerConfig J) (fd : Int) (steps : List ServerStep) : List DialogueEvent :=
  (server cfg).emitted (dialogueEvents fd) new steps

/-- The kernel does what it says: files of less than 2^31 bytes are mapped in full, and `writev`
accepts at least one byte and at most what it is offered. -/
def KernelKeepsWord (s : HttpServer J) : ServerStep → Prop
  | .run index w => SmallFiles w.fs ∧ MapsWhole w.fs ∧
      ∀ task client, s.tasks[index]? = some task → task.kind = .onWrite →
        s.users task.user = some client → (handedOver w.counts client).isSome
  | _ => True

/-! ## §3  The tokens -/

/-- What the server has of the descriptor is what the dialogue has, and what waits for it is for
the phase it is in. -/
structure Stands (fd : Int) (s : HttpServer J) (x : Dialogue J) : Prop where
  conn : x.conn = s.users fd
  isOpen : x.phase ≠ .closed ↔ s.isConnected fd = true
  watched : ∀ r, s.epoll fd = some r → r.events = x.phase.events
  told : ∀ e ∈ s.delivered, e.1 = fd → (Registration.mk x.phase.events true).Reports e.2
  queued : ∀ task ∈ s.tasks, task.user = fd → task.kind = x.phase.kind

/-- Nothing waits for the descriptor. -/
structure Idle (fd : Int) (s : HttpServer J) : Prop where
  delivered : ∀ e ∈ s.delivered, e.1 ≠ fd
  tasks : ∀ task ∈ s.tasks, task.user ≠ fd

theorem idle_of_none {spent : Option Int} (h : OneToken spent s)
    (hnone : ¬ (s.isConnected fd = true ∧ spent ≠ some fd)) : Idle fd s := by
  have htokens := h.tokens fd
  rw [if_neg hnone] at htokens
  have hunhandled : s.unhandled fd = 0 := by omega
  have houtstanding : s.outstanding fd = 0 := by omega
  rw [unhandled, List.countP_eq_zero] at hunhandled
  rw [outstanding, List.countP_eq_zero] at houtstanding
  constructor
  · intro e he heq
    exact hunhandled e he (decide_eq_true heq)
  · intro task htask heq
    exact houtstanding task htask (decide_eq_true heq)

/-- A step that leaves the descriptor alone. -/
theorem Stands.apart (h : Stands fd s x) (husers : s'.users fd = s.users fd)
    (hepoll : ∀ r, s'.epoll fd = some r → ∃ r₀, s.epoll fd = some r₀ ∧ r.events = r₀.events)
    (hdelivered : ∀ e ∈ s'.delivered, e.1 = fd → e ∈ s.delivered)
    (htasks : ∀ task ∈ s'.tasks, task.user = fd → task ∈ s.tasks) : Stands fd s' x := by
  constructor
  case conn => exact h.conn.trans husers.symm
  case isOpen => rw [h.isOpen, isConnected_of_users_eq husers]
  case watched =>
    intro r hr
    obtain ⟨r₀, hr₀, heq⟩ := hepoll r hr
    exact heq.trans (h.watched r₀ hr₀)
  case told => exact fun e he heq => h.told e (hdelivered e he heq) heq
  case queued => exact fun task ht heq => h.queued task (htasks task ht heq) heq

/-- How a step leaves the connection it is about: watched for the phase it is in, or closed. -/
inductive Left (cfg : ServerConfig J) (fd : Int) (s s' : HttpServer J) (x : Dialogue J) : Prop
  | watched (client : HttpConn J) (hconn : x.conn = some client) (hisOpen : client.isClose = false)
      (hphase : x.phase ≠ .closed) (hs' : s' = (s.setUser fd client).watch fd x.phase.events)
  | closed (client closed : HttpConn J) (hconn : x.conn = some closed) (hphase : x.phase = .closed)
      (hends : client.fd = fd ∧ client.proxyFd = -1)
      (hclosed : Closed cfg fd client (s.setUser fd client) s') (huser : s'.users fd = some closed)

theorem Left.apart {d : Int} (hstatic : cfg.isSetProxy = false) (h : Left cfg d s s' x)
    (hd : fd ≠ d) : s'.users fd = s.users fd ∧ s'.epoll fd = s.epoll fd ∧
      s'.delivered = s.delivered ∧ s'.tasks = s.tasks := by
  cases h with
  | watched client hconn hisOpen hphase hs' =>
      rw [hs']
      exact ⟨setUser_users_other hd, watch_epoll_other _ hd, rfl, rfl⟩
  | closed client closed hconn hphase hends hclosed huser =>
      obtain ⟨c, husers, -⟩ := hclosed.users
      refine ⟨?_, ?_, hclosed.delivered, hclosed.tasks⟩
      · rw [husers, Function.update_of_ne hd]
        exact setUser_users_other hd
      · rw [hclosed.epoll, hends.1, hends.2, hstatic, if_neg]
        · rfl
        · rintro (heq | ⟨-, hset | hne⟩)
          · exact hd heq
          · cases hset
          · exact hne rfl

theorem Left.stands (h : Left cfg fd s s' x) (hidle : Idle fd s) :
    Stands fd s' x := by
  cases h with
  | watched client hconn hisOpen hphase hs' =>
      rw [hs']
      constructor
      case conn => exact hconn.trans setUser_users_self.symm
      case isOpen => exact iff_of_true hphase (isConnected_of_user setUser_users_self hisOpen)
      case watched =>
        intro r hr
        rw [watch_epoll_self] at hr
        rw [← Option.some.inj hr]
      case told => exact fun e he heq => absurd heq (hidle.delivered e he)
      case queued => exact fun task ht heq => absurd heq (hidle.tasks task ht)
  | closed client closed hconn hphase hends hclosed huser =>
      obtain ⟨c, husers, hc, -⟩ := hclosed.users
      obtain rfl : c = closed := by
        rw [husers, Function.update_self] at huser
        exact Option.some.inj huser
      constructor
      case conn => exact hconn.trans huser.symm
      case isOpen =>
        refine iff_of_false (not_not_intro hphase) fun hconnected => ?_
        obtain ⟨c', hc', hisOpen⟩ := isConnected_iff.mp hconnected
        obtain rfl := Option.some.inj (huser.symm.trans hc')
        rw [hc] at hisOpen
        cases hisOpen
      case watched =>
        intro r hr
        rw [hclosed.epoll, if_pos (Or.inl hends.1.symm)] at hr
        cases hr
      case told =>
        rw [hclosed.delivered]
        exact fun e he heq => absurd heq (hidle.delivered e he)
      case queued =>
        rw [hclosed.tasks]
        exact fun task ht heq => absurd heq (hidle.tasks task ht)

/-! ### The tasks -/

theorem setUser_self (huser : s.users fd = some client) : s.setUser fd client = s := by
  unfold setUser
  rw [← huser, Function.update_eq_self]

theorem closeConn_object (hclose : s.closeConn cfg fd = some s') (huser : s.users fd = some client)
    (hopen : client.isClose = false) :
    ∃ closed, client.close cfg.js = .ok closed ∧ s'.users fd = some closed := by
  unfold closeConn at hclose
  rw [userAt_of_user huser] at hclose
  simp only [bind, Option.bind, closeClient] at hclose
  cases hclosed : client.close cfg.js with
  | error e => simp [hclosed] at hclose
  | ok closed =>
      simp only [hclosed, hopen, Bool.false_eq_true, if_false, Option.some.injEq] at hclose
      subst hclose
      refine ⟨closed, rfl, ?_⟩
      split <;> split <;> exact Function.update_self ..

/-- A connection that is closed, in the state the task leaves it in. -/
theorem closes_left (hclose : (s.setUser fd client).closeConn cfg fd = some s')
    (hopen : client.isClose = false) (hends : client.fd = fd ∧ client.proxyFd = -1)
    (hstored : BuffersStored client) :
    ∃ x', x.close cfg client = some x' ∧ Left cfg fd s s' x' ∧
      ∀ c, x'.conn = some c → BuffersStored c := by
  obtain ⟨closed, hclosed, huser⟩ := closeConn_object hclose setUser_users_self hopen
  refine ⟨{ x with conn := some closed, phase := .closed }, ?_, ?_, ?_⟩
  · rw [Dialogue.close, hclosed]
  · exact .closed client closed rfl rfl hends
      (closeConn_closed hclose setUser_users_self hopen) huser
  · intro c hc
    obtain rfl := Option.some.inj hc
    exact close_buffersStored hstored hclosed

theorem reads_left (hstatic : cfg.isSetProxy = false) (huser : s.users fd = some client)
    (hopen : client.isClose = false) (hends : client.fd = fd ∧ client.proxyFd = -1)
    (hstored : BuffersStored client) (hphase : x.phase = .reading) {w : TaskWorld}
    (hsmall : SmallFiles w.fs) (hwhole : MapsWhole w.fs)
    (hread : s.onRead cfg w fd = some s') :
    ∃ x', x.read cfg w client = some x' ∧ Left cfg fd s s' x' ∧
      ∀ c, x'.conn = some c → BuffersStored c := by
  have hstored₁ := readFromFd_buffersStored hstored w.reads
  unfold onRead at hread
  rw [userAt_of_user huser] at hread
  simp only [bind, Option.bind, hstatic, Bool.false_eq_true, if_false] at hread
  unfold Dialogue.read
  dsimp only
  by_cases hend : w.readRet ≤ 0 ∧ w.readError ≠ .eagain
  · rw [if_pos hend] at hread ⊢
    exact closes_left hread hopen hends hstored₁
  · rw [if_neg hend] at hread ⊢
    unfold onProcessStatic at hread
    cases hprocess : (client.readFromFd w.reads).process cfg.js w.fs cfg.webRoot with
    | error e => simp [hprocess] at hread
    | ok p =>
        obtain ⟨result, client'⟩ := p
        obtain ⟨hfd, -, hclosed⟩ := process_same hprocess
        have hfd' : client'.fd = fd := hfd.trans hends.1
        have hopen' : client'.isClose = false := hclosed.trans hopen
        have hstored' := process_buffersStored hstored₁ hprocess
        have hkept : ∀ c, some client' = some c → BuffersStored c := by
          intro c hc
          obtain rfl := Option.some.inj hc
          exact hstored'
        rw [hprocess] at hread
        cases result with
        | finish =>
            obtain ⟨g, u, n, hb⟩ := hstored₁.writeBuff
            obtain ⟨-, -, -, -, bytes, -, -, -, -, -, -, hunsent⟩ :=
              process_answers hb hsmall hwhole hprocess
            obtain rfl := Option.some.inj hread
            dsimp only
            rw [hunsent.offered, hfd']
            exact ⟨_, rfl, .watched client' rfl hopen' (by simp) rfl, hkept⟩
        | pending =>
            obtain rfl := Option.some.inj hread
            dsimp only
            rw [hfd']
            refine ⟨_, rfl, .watched client' rfl hopen' ?_ ?_, hkept⟩
            · rw [hphase]
              decide
            · rw [hphase]
              rfl
        | fail =>
            obtain rfl := Option.some.inj hread
            dsimp only
            rw [hfd']
            refine ⟨_, rfl, .watched client' rfl hopen' ?_ ?_, hkept⟩
            · rw [hphase]
              decide
            · rw [hphase]
              rfl

theorem writes_left (htimeout : cfg.timeout = 0) (huser : s.users fd = some client)
    (hopen : client.isClose = false) (hends : client.fd = fd ∧ client.proxyFd = -1)
    (hstored : BuffersStored client) (hphase : x.phase = .writing) {w : TaskWorld}
    (hkernel : (handedOver w.counts client).isSome)
    (hwrite : s.onWrite cfg w fd false = some s') :
    ∃ x', x.write cfg w client = some x' ∧ Left cfg fd s s' x' ∧
      ∀ c, x'.conn = some c → BuffersStored c := by
  obtain ⟨bytes, hbytes⟩ := Option.isSome_iff_exists.mp hkernel
  have hsame : SameEnds client (client.writeToFd w.last w.counts).2 :=
    (writeLoop_same w.last w.counts 0 client).1
  have hstored₁ : BuffersStored (client.writeToFd w.last w.counts).2 :=
    writeLoop_buffersStored w.last w.counts 0 client hstored
  obtain ⟨write, client', hpair⟩ : ∃ write client',
      client.writeToFd w.last w.counts = (write, client') := ⟨_, _, rfl⟩
  rw [hpair] at hsame hstored₁
  have hopen' : client'.isClose = false := hsame.isClose.trans hopen
  have hfd' : client'.fd = fd := hsame.fd.trans hends.1
  have hkept : ∀ c, some client' = some c → BuffersStored c := by
    intro c hc
    obtain rfl := Option.some.inj hc
    exact hstored₁
  rw [onWrite_of_user huser hpair, onWritten, if_neg fun h => Bool.false_ne_true h.2] at hwrite
  unfold Dialogue.write
  rw [hbytes]
  dsimp only
  rw [hpair]
  dsimp only
  by_cases hkeep : client'.pendingWriteBytes = 0 ∧ client'.isKeepAlive = true
  · rw [if_pos hkeep, extentTime_off htimeout, hfd'] at hwrite
    obtain rfl := Option.some.inj hwrite
    rw [if_pos hkeep]
    exact ⟨_, rfl, .watched client' rfl hopen' (by simp) rfl, hkept⟩
  · rw [if_neg hkeep] at hwrite ⊢
    by_cases hblock : client'.pendingWriteBytes ≠ 0 ∧ write.ret < 0 ∧ write.error = some .eagain
    · rw [if_pos hblock, if_neg Bool.false_ne_true, hfd'] at hwrite
      obtain rfl := Option.some.inj hwrite
      rw [if_pos hblock]
      refine ⟨_, rfl, .watched client' rfl hopen' ?_ ?_, hkept⟩
      · rw [hphase]
        decide
      · rw [hphase]
        rfl
    · rw [if_neg hblock, if_neg Bool.false_ne_true] at hwrite
      rw [if_neg hblock]
      exact closes_left hwrite hopen' ⟨hfd', hsame.proxyFd.trans hends.2⟩ hstored₁

/-! ## §4  Every run -/

/-- Every connection has one token, the buffers are in order, and the dialogue stands for the
descriptor. -/
structure Sees (fd : Int) (s : HttpServer J) (x : Dialogue J) : Prop where
  token : OneToken none s
  stored : ∀ d client, s.users d = some client → BuffersStored client
  stands : Stands fd s x

theorem exec_one {event : DialogueEvent} {x' : Dialogue J} (h : x.step cfg fd event = some x') :
    (Dialogue.machine cfg fd).exec x [event] = some (x', [()]) :=
  Machine.exec_cons_eq_some.mpr ⟨x', (), [], Machine.map_unit_eq_some.mpr h, rfl, rfl⟩

/-- What is stored stays so when one connection is left with its buffers in order. -/
theorem Left.stored {d : Int} (hstatic : cfg.isSetProxy = false) (h : Left cfg d s s' x)
    (hothers : ∀ d client, s.users d = some client → BuffersStored client)
    (hone : ∀ c, x.conn = some c → BuffersStored c) :
    ∀ d client, s'.users d = some client → BuffersStored client := by
  intro d' client hclient
  by_cases hd : d' = d
  · subst hd
    apply hone
    cases h with
    | watched c hconn hisOpen hphase hs' =>
        rw [hs'] at hclient
        rw [hconn, ← hclient]
        exact setUser_users_self.symm
    | closed c closed hconn hphase hends hclosed huser => rw [hconn, ← hclient, huser]
  · rw [(h.apart hstatic hd).1] at hclient
    exact hothers d' client hclient

/-- What a task does to its connection, as the dialogue that stands for it does it. -/
theorem runs_left (hstatic : cfg.isSetProxy = false) (htimeout : cfg.timeout = 0)
    (htoken : OneToken none s)
    (hstored : ∀ d client, s.users d = some client → BuffersStored client)
    {index : Nat} {w : TaskWorld} {task : Task} (htask : s.tasks[index]? = some task)
    (hkernel : KernelKeepsWord s (.run index w)) (hconn : x.conn = s.users task.user)
    (hphase : x.phase ≠ .closed) (hkind : task.kind = x.phase.kind)
    (hrun : s.runTask cfg index w = some s') :
    ∃ event x', dialogueEvents task.user s (.run index w) = [event] ∧
      x.step cfg task.user event = some x' ∧
      Left cfg task.user { s with tasks := s.tasks.eraseIdx index } s' x' ∧
      ∀ c, x'.conn = some c → BuffersStored c := by
  obtain ⟨hsmall, hwhole, hwritev⟩ := hkernel
  obtain ⟨hconnected, -⟩ := htoken.runs htask
  obtain ⟨client, huser, hopen⟩ := isConnected_iff.mp hconnected
  obtain ⟨hfd, hproxy⟩ := htoken.own _ _ huser
  have hends : client.fd = task.user ∧ client.proxyFd = -1 := ⟨hfd, (hproxy hopen).1⟩
  have hdirect := htoken.direct task (List.mem_of_getElem? htask)
  simp only [runTask, htask] at hrun
  have hevents : dialogueEvents task.user s (.run index w) = [task.kind.event w] := by
    simp only [dialogueEvents, htask, if_true]
  rw [hevents]
  cases hk : task.kind with
  | onRead =>
      have hreading : x.phase = .reading := by
        rw [hk] at hkind
        revert hkind hphase
        cases x.phase <;> simp [Phase.kind]
      rw [hk] at hrun
      obtain ⟨x', hx', hleft, hkept⟩ := reads_left (s := { s with tasks := s.tasks.eraseIdx index })
        hstatic huser hopen hends (hstored _ _ huser) hreading hsmall hwhole hrun
      refine ⟨.read w, x', rfl, ?_, hleft, hkept⟩
      rw [Dialogue.step, if_pos hreading, hconn, huser]
      exact hx'
  | onWrite =>
      have hwriting : x.phase = .writing := by
        rw [hk] at hkind
        revert hkind hphase
        cases x.phase <;> simp [Phase.kind]
      rw [hk, hdirect] at hrun
      obtain ⟨x', hx', hleft, hkept⟩ := writes_left
        (s := { s with tasks := s.tasks.eraseIdx index }) htimeout huser hopen hends
        (hstored _ _ huser) hwriting (hwritev task client htask hk huser) hrun
      refine ⟨.write w, x', rfl, ?_, hleft, hkept⟩
      rw [Dialogue.step, if_pos hwriting, hconn, huser]
      exact hx'

theorem Sees.runs (h : Sees fd s x) (hstatic : cfg.isSetProxy = false) (htimeout : cfg.timeout = 0)
    {index : Nat} {w : TaskWorld} (hkernel : KernelKeepsWord s (.run index w))
    (hrun : s.runTask cfg index w = some s') :
    ∃ x' os, (Dialogue.machine cfg fd).exec x (dialogueEvents fd s (.run index w)) = some (x', os) ∧
      Sees fd s' x' := by
  have htoken := h.token.runTask hstatic htimeout hrun
  cases htask : s.tasks[index]? with
  | none => simp [runTask, htask] at hrun
  | some task =>
      have hmem := List.mem_of_getElem? htask
      obtain ⟨hconnected, hspent⟩ := h.token.runs htask
      by_cases hd : task.user = fd
      · subst hd
        obtain ⟨event, x', hevents, hx', hleft, hkept⟩ := runs_left hstatic htimeout h.token
          h.stored htask hkernel h.stands.conn (h.stands.isOpen.mpr hconnected)
          (h.stands.queued task hmem rfl) hrun
        rw [hevents]
        have hidle : Idle task.user { s with tasks := s.tasks.eraseIdx index } :=
          idle_of_none hspent fun hand => hand.2 rfl
        exact ⟨x', [()], exec_one hx', htoken, hleft.stored hstatic h.stored hkept,
          hleft.stands hidle⟩
      · -- the task of another connection
        obtain ⟨event, x', -, -, hleft, hkept⟩ := runs_left
          (x := { conn := s.users task.user, phase := task.kind.phase, received := [], sent := [],
                  answers := [] })
          hstatic htimeout h.token h.stored htask hkernel rfl
          (by cases task.kind <;> simp [TaskKind.phase]) (by cases task.kind <;> rfl) hrun
        have hevents : dialogueEvents fd s (.run index w) = [] := by
          simp only [dialogueEvents, htask, if_neg hd]
        rw [hevents]
        have hapart := hleft.apart hstatic (show fd ≠ task.user from Ne.symm hd)
        obtain ⟨husers, hepoll, hdelivered, htasks⟩ := hapart
        refine ⟨x, [], rfl, htoken, hleft.stored hstatic h.stored hkept, ?_⟩
        apply h.stands.apart husers
        · intro r hr
          rw [hepoll] at hr
          exact ⟨r, hr, rfl⟩
        · rw [hdelivered]
          exact fun e he _ => he
        · rw [htasks]
          exact fun task' ht _ => List.mem_of_mem_eraseIdx ht

theorem Sees.delivers (h : Sees fd s x) {d : Int} {events : EpollEvents}
    (hdeliver : s.deliver d events = some s') : Sees fd s' x := by
  have htoken := h.token.delivers hdeliver
  unfold HttpServer.deliver at hdeliver
  cases hr : s.epoll d with
  | none => simp [hr] at hdeliver
  | some r =>
      simp only [hr, Option.ite_none_right_eq_some, Option.some.injEq] at hdeliver
      obtain ⟨⟨-, hreports, -⟩, rfl⟩ := hdeliver
      refine ⟨htoken, h.stored, h.stands.conn, h.stands.isOpen, ?_, ?_, h.stands.queued⟩
      · intro r' hr'
        by_cases hd : fd = d
        · subst hd
          simp only [Function.update_self, Option.some.injEq] at hr'
          rw [← hr']
          exact h.stands.watched r hr
        · simp only [Function.update_of_ne hd] at hr'
          exact h.stands.watched r' hr'
      · intro e he heq
        rcases List.mem_append.mp he with he | he
        · exact h.stands.told e he heq
        · obtain rfl := List.mem_singleton.mp he
          obtain rfl : d = fd := heq
          rw [← h.stands.watched r hr]
          exact hreports

/-- What epoll reports becomes the task of the phase. -/
theorem kind_of_told {phase : Phase} {events : EpollEvents} {kind : TaskKind}
    (htold : (Registration.mk phase.events true).Reports events)
    (hkind : if kind = .onRead then events.epollin = true else events.epollout = true) :
    kind = phase.kind := by
  obtain ⟨-, hin, hout, -⟩ := htold
  cases phase <;> cases kind <;> first
    | rfl
    | exact absurd (hin hkind) (by decide)
    | exact absurd (hout hkind) (by decide)

theorem Sees.deals (h : Sees fd s x) (htimeout : cfg.timeout = 0) (hstatic : cfg.isSetProxy = false)
    {d : Int} {events : EpollEvents} {rest : List (Int × EpollEvents)} {kind : TaskKind}
    (hdelivered : s.delivered = (d, events) :: rest)
    (hkind : if kind = .onRead then events.epollin = true else events.epollout = true)
    (htoken : OneToken none s')
    (hdeal : HttpServer.dealTask cfg kind d { s with delivered := rest } = some s') :
    Sees fd s' x := by
  obtain ⟨hconnected, -⟩ := h.token.pops hdelivered
  obtain ⟨client, huser, -⟩ := isConnected_iff.mp hconnected
  have huser' : ({ s with delivered := rest } : HttpServer J).users d = some client := huser
  simp only [HttpServer.dealTask, hstatic, Bool.false_eq_true, if_false, userAt_of_user huser',
    bind, Option.bind, extentTime_off htimeout, Option.some.injEq] at hdeal
  subst hdeal
  refine ⟨htoken, h.stored, h.stands.conn, h.stands.isOpen, h.stands.watched, ?_, ?_⟩
  · intro e he heq
    apply h.stands.told e _ heq
    rw [hdelivered]
    exact List.mem_cons_of_mem _ he
  · intro task ht heq
    rcases List.mem_append.mp ht with ht | ht
    · exact h.stands.queued task ht heq
    · obtain rfl := List.mem_singleton.mp ht
      obtain rfl : d = fd := heq
      refine kind_of_told (h.stands.told (d, events) ?_ rfl) hkind
      rw [hdelivered]
      exact List.mem_cons_self

theorem Sees.handles (h : Sees fd s x) (hstatic : cfg.isSetProxy = false)
    (htimeout : cfg.timeout = 0) {connects : List Connect}
    (hhandle : s.handle cfg connects = some s') :
    ∃ x' os, (Dialogue.machine cfg fd).exec x (dialogueEvents fd s (.handle connects)) =
        some (x', os) ∧ Sees fd s' x' := by
  have htoken := h.token.handle hstatic htimeout hhandle
  unfold HttpServer.handle at hhandle
  cases hdelivered : s.delivered with
  | nil => simp [hdelivered] at hhandle
  | cons e rest =>
      obtain ⟨d, events⟩ := e
      obtain ⟨hconnected, hspent⟩ := h.token.pops hdelivered
      obtain ⟨client, huser, hopen⟩ := isConnected_iff.mp hconnected
      obtain ⟨hfd, hproxy⟩ := h.token.own d client huser
      simp only [hdelivered] at hhandle
      by_cases hhup : events.hangsUp = true
      · -- the connection is closed
        simp only [hhup, if_true, dealDisconnect, hstatic, Bool.false_eq_true, false_and,
          if_false] at hhandle
        have huser' : ({ s with delivered := rest } : HttpServer J).users d = some client := huser
        rw [← setUser_self huser'] at hhandle
        by_cases hd : d = fd
        · subst hd
          obtain ⟨x', hx', hleft, hkept⟩ := closes_left (x := x) hhandle hopen
            ⟨hfd, (hproxy hopen).1⟩ (h.stored d client huser)
          have hevents : dialogueEvents d s (.handle connects) = [.hangUp] := by
            simp [dialogueEvents, hdelivered, hhup]
          have hstep : x.step cfg d .hangUp = some x' := by
            rw [Dialogue.step, if_neg (h.stands.isOpen.mpr hconnected), h.stands.conn, huser]
            exact hx'
          rw [hevents]
          have hidle : Idle d { s with delivered := rest } :=
            idle_of_none hspent fun hand => hand.2 rfl
          exact ⟨x', [()], exec_one hstep, htoken,
            hleft.stored (s := { s with delivered := rest }) hstatic h.stored hkept,
            hleft.stands hidle⟩
        · obtain ⟨x', -, hleft, hkept⟩ := closes_left (x := Dialogue.new) hhandle hopen
            ⟨hfd, (hproxy hopen).1⟩ (h.stored d client huser)
          have hevents : dialogueEvents fd s (.handle connects) = [] := by
            simp [dialogueEvents, hdelivered, hd]
          rw [hevents]
          have hapart := hleft.apart hstatic (show fd ≠ d from Ne.symm hd)
          obtain ⟨husers, hepoll, hdelivered', htasks⟩ := hapart
          refine ⟨x, [], rfl, htoken,
            hleft.stored (s := { s with delivered := rest }) hstatic h.stored hkept, ?_⟩
          apply h.stands.apart husers
          · intro r hr
            rw [hepoll] at hr
            exact ⟨r, hr, rfl⟩
          · rw [hdelivered', hdelivered]
            exact fun e he _ => List.mem_cons_of_mem _ he
          · rw [htasks]
            exact fun task ht _ => ht
      · have hevents : dialogueEvents fd s (.handle connects) = [] := by
          simp [dialogueEvents, hdelivered, hhup]
        rw [hevents]
        rw [if_neg hhup] at hhandle
        refine ⟨x, [], rfl, ?_⟩
        by_cases hin : events.epollin = true
        · rw [if_pos hin] at hhandle
          exact h.deals htimeout hstatic hdelivered (by rw [if_pos rfl]; exact hin) htoken hhandle
        · rw [if_neg hin] at hhandle
          by_cases hout : events.epollout = true
          · rw [if_pos hout] at hhandle
            refine h.deals htimeout hstatic hdelivered ?_ htoken hhandle
            rw [if_neg (by decide)]
            exact hout
          · -- the report was not empty
            have hreported := h.token.reported (d, events)
              (by rw [hdelivered]; exact List.mem_cons_self)
            simp [hin, hout, hhup] at hreported

/-! ### Listening -/

theorem userAt_object {s₂ : HttpServer J} (hat : s.userAt cfg fd = some (client, s₂))
    (hconn : x.conn = s.users fd) : x.object cfg fd = .ok client := by
  unfold userAt at hat
  unfold Dialogue.object
  rw [hconn]
  cases huser : s.users fd with
  | some c =>
      rw [huser] at hat
      obtain ⟨rfl, -⟩ := Prod.mk.inj (Option.some.inj hat)
      rfl
  | none =>
      rw [huser] at hat
      dsimp only at hat ⊢
      cases hnew : HttpConn.new cfg.js (cfg.junk fd) with
      | error e => simp [hnew] at hat
      | ok c =>
          rw [hnew] at hat
          obtain ⟨rfl, -⟩ := Prod.mk.inj (Option.some.inj hat)
          rfl

theorem object_stored (hobject : x.object cfg fd = .ok client)
    (hstored : ∀ c, x.conn = some c → BuffersStored c) : BuffersStored client := by
  unfold Dialogue.object at hobject
  cases hconn : x.conn with
  | some c =>
      rw [hconn] at hobject
      obtain rfl := Except.ok.inj hobject
      exact hstored c hconn
  | none =>
      rw [hconn] at hobject
      exact new_buffersStored hobject

/-- A client is taken in. -/
theorem Sees.adds (h : Sees fd s x) {a : Accept}
    (hfree : s.openFds a.fd = false)
    (hadd : (s.openFd a.fd).addClient cfg a.fd a.addr (-1) = some s') :
    ∃ x' os, (Dialogue.machine cfg fd).exec x (if a.fd = fd then [.accept a.addr] else []) =
        some (x', os) ∧ Sees fd s' x' ∧ s'.userCount = s.userCount + 1 := by
  have htoken := h.token.adds hfree hadd
  have hadded := addClient_added hadd
  obtain ⟨client₁, s₁, hat⟩ : ∃ client₁ s₁,
      (s.openFd a.fd).userAt cfg a.fd = some (client₁, s₁) := by
    unfold addClient at hadd
    obtain ⟨⟨client₁, s₁⟩, hat, -⟩ := Option.bind_eq_some_iff.mp hadd
    exact ⟨client₁, s₁, hat⟩
  have huser := addClient_user hadd hat
  have hobject : (Dialogue.mk (s.users a.fd) .closed [] [] []).object cfg a.fd = .ok client₁ :=
    userAt_object (s := s.openFd a.fd) hat rfl
  have hclient₁ := object_stored hobject fun c hc => h.stored a.fd c hc
  have hothers : ∀ d, d ≠ a.fd → s'.users d = s.users d := by
    intro d hd
    obtain ⟨c, husers, -⟩ := hadded.users
    rw [husers, Function.update_of_ne hd]
    rfl
  have hstored : ∀ d client, s'.users d = some client → BuffersStored client := by
    intro d client hc
    by_cases hd : d = a.fd
    · subst hd
      obtain rfl := Option.some.inj (huser.symm.trans hc)
      exact ⟨hclient₁.readBuff.clear, hclient₁.writeBuff.clear⟩
    · rw [hothers d hd] at hc
      exact h.stored d client hc
  have hepoll : s'.epoll = (s.watch a.fd connEventIn).epoll := hadded.epoll
  by_cases hd : a.fd = fd
  · subst hd
    have hnot := h.token.not_connected hfree
    have hclosed : x.phase = .closed := by
      by_contra hne
      rw [h.stands.isOpen.mp hne] at hnot
      cases hnot
    have hidle : Idle a.fd s := idle_of_none h.token fun hand => by
      rw [hnot] at hand
      cases hand.1
    rw [if_pos rfl]
    refine ⟨{ conn := some (client₁.init a.fd a.addr (-1) cfg.indexFile), phase := .reading,
              received := [], sent := [], answers := [] }, [()], exec_one ?_,
      ⟨htoken, hstored, ?_⟩, hadded.userCount⟩
    · have hx : x.object cfg a.fd = .ok client₁ :=
        userAt_object (s := s.openFd a.fd) hat h.stands.conn
      rw [Dialogue.step, if_pos hclosed, Dialogue.accept, hx]
    · constructor
      case conn => exact huser.symm
      case isOpen =>
        exact iff_of_true (by simp) (isConnected_of_user huser rfl)
      case watched =>
        intro r hr
        rw [hepoll, watch_epoll_self] at hr
        rw [← Option.some.inj hr]
        rfl
      case told =>
        rw [hadded.delivered]
        exact fun e he heq => absurd heq (hidle.delivered e he)
      case queued =>
        rw [hadded.tasks]
        exact fun task ht heq => absurd heq (hidle.tasks task ht)
  · rw [if_neg hd]
    refine ⟨x, [], rfl, ⟨htoken, hstored, ?_⟩, hadded.userCount⟩
    apply h.stands.apart (hothers fd (Ne.symm hd))
    · intro r hr
      rw [hepoll, watch_epoll_other _ (Ne.symm hd)] at hr
      exact ⟨r, hr, rfl⟩
    · rw [hadded.delivered]
      exact fun e he _ => he
    · rw [hadded.tasks]
      exact fun task ht _ => ht

theorem Sees.refuses (h : Sees fd s x) {d : Int} (hfree : s.openFds d = false) :
    Sees fd ((s.openFd d).closeFd .server d) x := by
  refine ⟨h.token.refuses hfree, h.stored, ?_⟩
  apply h.stands.apart (show ((s.openFd d).closeFd .server d).users fd = s.users fd from rfl)
  · intro r hr
    by_cases hd : fd = d
    · subst hd
      rw [show ((s.openFd fd).closeFd .server fd).epoll fd = none from
        Function.update_self ..] at hr
      cases hr
    · rw [show ((s.openFd d).closeFd .server d).epoll fd = s.epoll fd from
        Function.update_of_ne hd ..] at hr
      exact ⟨r, hr, rfl⟩
  · exact fun e he _ => he
  · exact fun task ht _ => ht

theorem Sees.listens (hstatic : cfg.isSetProxy = false) :
    ∀ (accepts : List Accept) {s : HttpServer J} {x : Dialogue J}, Sees fd s x →
      s.dealListen cfg accepts = some s' →
        ∃ x' os, (Dialogue.machine cfg fd).exec x (dialogueEvents fd s (.listen accepts)) =
          some (x', os) ∧ Sees fd s' x' := by
  intro accepts
  induction accepts with
  | nil =>
      intro s x h hlisten
      obtain rfl := Option.some.inj hlisten
      exact ⟨x, [], rfl, h⟩
  | cons a rest ih =>
      intro s x h hlisten
      rw [HttpServer.dealListen] at hlisten
      by_cases hneg : a.fd < 0
      · rw [if_pos hneg] at hlisten
        obtain rfl := Option.some.inj hlisten
        rw [dialogueEvents, admitted, if_pos (Or.inl hneg)]
        exact ⟨x, [], rfl, h⟩
      · rw [if_neg hneg] at hlisten
        cases hfree : s.openFds a.fd with
        | true => simp [hfree] at hlisten
        | false =>
            simp only [hfree, hstatic, Bool.false_eq_true, if_false] at hlisten
            by_cases hfull : kMaxFd ≤ s.userCount
            · rw [if_pos (show (s.openFd a.fd).userCount ≥ kMaxFd from hfull)] at hlisten
              obtain rfl := Option.some.inj hlisten
              rw [dialogueEvents, admitted, if_pos (Or.inr hfull)]
              exact ⟨x, [], rfl, h.refuses hfree⟩
            · rw [if_neg (show ¬ (s.openFd a.fd).userCount ≥ kMaxFd from hfull)] at hlisten
              obtain ⟨s₁, hadd, hrest⟩ := Option.bind_eq_some_iff.mp hlisten
              obtain ⟨x₁, os₁, hx₁, h₁, hcount⟩ := h.adds hfree hadd
              obtain ⟨x', os₂, hx', h'⟩ := ih h₁ hrest
              refine ⟨x', os₁ ++ os₂, ?_, h'⟩
              have hevents : dialogueEvents fd s (.listen (a :: rest)) =
                  (if a.fd = fd then [.accept a.addr] else []) ++
                    dialogueEvents fd s₁ (.listen rest) := by
                rw [dialogueEvents, dialogueEvents, admitted,
                  if_neg (not_or.mpr ⟨hneg, hfull⟩), hcount, List.filter_cons]
                by_cases hd : a.fd = fd
                · rw [if_pos hd, if_pos (decide_eq_true hd)]
                  rfl
                · rw [if_neg hd, if_neg (by simpa using hd)]
                  rfl
              rw [hevents]
              exact Machine.exec_append.mpr ⟨x₁, os₁, os₂, hx₁, hx', rfl⟩

/-! ### Runs -/

theorem Sees.serverStep (h : Sees fd s x) (hstatic : cfg.isSetProxy = false)
    (htimeout : cfg.timeout = 0) {step : ServerStep} (hkernel : KernelKeepsWord s step)
    (hstep : WhiteWebServer.HttpServer.serverStep cfg s step = some s') :
    ∃ x' os, (Dialogue.machine cfg fd).exec x (dialogueEvents fd s step) = some (x', os) ∧
      Sees fd s' x' := by
  cases step with
  | listen accepts => exact Sees.listens hstatic accepts h hstep
  | deliver d events => exact ⟨x, [], rfl, h.delivers hstep⟩
  | handle connects => exact h.handles hstatic htimeout hstep
  | run index w => exact h.runs hstatic htimeout hkernel hstep
  | elapse ms =>
      have htoken := h.token.serverStep hstatic htimeout hstep
      obtain rfl := Option.some.inj hstep
      exact ⟨x, [], rfl, htoken, h.stored, h.stands.conn, h.stands.isOpen, h.stands.watched,
        h.stands.told, h.stands.queued⟩
  | expire d =>
      rw [WhiteWebServer.HttpServer.serverStep, expire_off htimeout] at hstep
      cases hstep

theorem Sees.new (fd : Int) : Sees fd (HttpServer.new : HttpServer J) Dialogue.new := by
  refine ⟨OneToken.new, (fun d client hc => by cases hc), ?_⟩
  constructor
  case conn => rfl
  case isOpen => exact iff_of_false (fun h => h rfl) (by simp [isConnected, HttpServer.new])
  case watched =>
    intro r hr
    cases hr
  case told =>
    intro e he
    cases he
  case queued =>
    intro task ht
    cases ht

/-- **The server is its connections, one beside the other.** For each descriptor a run of the
server is a run of that descriptor by itself. -/
theorem server_projects (hstatic : cfg.isSetProxy = false) (htimeout : cfg.timeout = 0)
    {steps : List ServerStep} {os : List Unit}
    (hkernel : (server cfg).Meets KernelKeepsWord HttpServer.new steps)
    (hrun : (server cfg).run steps = some (s, os)) (fd : Int) :
    ∃ x os', (Dialogue.machine cfg fd).run (eventsAt cfg fd steps) = some (x, os') ∧ Sees fd s x :=
  Machine.exec_projects
    (fun _ _ _ _ _ h hP hstep => h.serverStep hstatic htimeout hP (server_step.mp hstep))
    (Sees.new fd) hkernel hrun

end HttpServer

end WhiteWebServer
