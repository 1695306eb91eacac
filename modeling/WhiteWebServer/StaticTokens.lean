import WhiteWebServer.HttpServer
import WhiteWebServer.Pipelining

/-!
# Static mode: one token for each connection

A connection is watched by epoll, has an event that waits for the event loop,
or has a task; always one of the three, and one only. A step takes the token of
one connection (`spent`) and puts it back somewhere, or closes the connection.
-/

namespace WhiteWebServer

open HttpConn

namespace HttpServer

variable {J : Type} {cfg : ServerConfig J} {s s' : HttpServer J} {fd : Int}
  {client client' : HttpConn J}

/-- Each connection has one token, except that of `spent` is in the hands of the step
under way, and nothing else has any. -/
structure OneToken (spent : Option Int) (s : HttpServer J) : Prop where
  own : ∀ fd client, s.users fd = some client → client.fd = fd ∧
    (client.isClose = false → client.proxyFd = -1 ∧ s.openFds fd = true)
  tokens : ∀ fd, s.armed fd + s.unhandled fd + s.outstanding fd =
    if s.isConnected fd = true ∧ spent ≠ some fd then 1 else 0
  oneshot : ∀ fd r, s.epoll fd = some r → r.events.epolloneshot = true
  reported : ∀ e ∈ s.delivered, (e.2.epollin || e.2.epollout || e.2.hangsUp) = true
  direct : ∀ task ∈ s.tasks, task.inProxy = false

/-! ## Giving the token back -/

theorem OneToken.setUser {spent : Option Int} (h : OneToken spent s)
    (huser : s.users fd = some client) (hsame : SameEnds client client') :
    OneToken spent (s.setUser fd client') := by
  refine ⟨?_, ?_, h.oneshot, h.reported, h.direct⟩
  · intro d c hc
    by_cases hd : d = fd
    · subst hd
      rw [setUser_users_self] at hc
      obtain rfl := Option.some.inj hc
      obtain ⟨hfd, hproxy⟩ := h.own d client huser
      refine ⟨hsame.fd.trans hfd, fun hopen => ?_⟩
      rw [hsame.proxyFd]
      exact hproxy (hsame.isClose.symm.trans hopen)
    · rw [setUser_users_other hd] at hc
      exact h.own d c hc
  · intro d
    have hconnected : (s.setUser fd client').isConnected d = s.isConnected d := by
      by_cases hd : d = fd
      · subst hd
        simp [isConnected, huser, HttpConn.isConnected, hsame.isClose]
      · exact isConnected_of_users_eq (setUser_users_other hd)
    rw [hconnected]
    exact h.tokens d

/-- The descriptor is watched again. -/
theorem OneToken.watch (h : OneToken (some fd) s) (hconnected : s.isConnected fd = true)
    {events : EpollEvents} (hevents : events.epolloneshot = true) :
    OneToken none (s.watch fd events) := by
  refine ⟨h.own, ?_, ?_, h.reported, h.direct⟩
  · intro d
    have htokens := h.tokens d
    by_cases hd : d = fd
    · subst hd
      rw [if_neg fun hspent => hspent.2 rfl] at htokens
      rw [if_pos ⟨hconnected, Option.some_ne_none d |>.symm⟩, armed_watch_self]
      show 1 + s.unhandled d + s.outstanding d = 1
      omega
    · have hspent : some fd ≠ some d := fun heq => hd (Option.some.inj heq).symm
      rw [armed_watch_other events hd]
      simp only [ne_eq, hspent, not_false_eq_true, and_true, reduceCtorEq] at htokens ⊢
      exact htokens
  · intro d r hr
    by_cases hd : d = fd
    · subst hd
      rw [watch_epoll_self] at hr
      obtain rfl := Option.some.inj hr
      exact hevents
    · rw [watch_epoll_other events hd] at hr
      exact h.oneshot d r hr

/-- The connection is closed. -/
theorem OneToken.closes (h : OneToken (some fd) s) (huser : s.users fd = some client)
    (hopen : client.isClose = false) (hclose : s.closeConn cfg fd = some s')
    (hstatic : cfg.isSetProxy = false) : OneToken none s' := by
  have hclosed := closeConn_closed hclose huser hopen
  obtain ⟨closed, husers, hisClose, hfd⟩ := hclosed.users
  obtain ⟨hclient, hproxy⟩ := h.own fd client huser
  have hepoll : ∀ d, s'.epoll d = if d = fd then none else s.epoll d := by
    intro d
    rw [hclosed.epoll d, hclient, hstatic, (hproxy hopen).1]
    simp
  constructor
  case own =>
    intro d c hc
    rw [husers] at hc
    by_cases hd : d = fd
    · subst hd
      rw [Function.update_self] at hc
      obtain rfl := Option.some.inj hc
      exact ⟨hfd.trans hclient, fun hfalse => by rw [hisClose] at hfalse; cases hfalse⟩
    · rw [Function.update_of_ne hd] at hc
      obtain ⟨hown, hopened⟩ := h.own d c hc
      refine ⟨hown, fun hc' => ⟨(hopened hc').1, ?_⟩⟩
      rw [hclosed.openFds d, hclient, if_neg]
      · exact (hopened hc').2
      · rintro (heq | ⟨-, hne⟩)
        · exact hd heq
        · exact hne (hproxy hopen).1
  case tokens =>
    intro d
    have htokens := h.tokens d
    rw [unhandled, outstanding, hclosed.delivered, hclosed.tasks]
    by_cases hd : d = fd
    · subst hd
      have hnot : s'.isConnected d = false := by
        simp [isConnected, husers, HttpConn.isConnected, hisClose]
      rw [if_neg fun hspent => hspent.2 rfl] at htokens
      rw [if_neg (by rw [hnot]; rintro ⟨hfalse, -⟩; cases hfalse),
        armed_of_none (by rw [hepoll, if_pos rfl])]
      rw [unhandled, outstanding] at htokens
      omega
    · have hconnected : s'.isConnected d = s.isConnected d :=
        isConnected_of_users_eq (by rw [husers, Function.update_of_ne hd])
      rw [hconnected, armed_of_epoll_eq (show s'.epoll d = s.epoll d by rw [hepoll, if_neg hd])]
      have hspent : some fd ≠ some d := fun heq => hd (Option.some.inj heq).symm
      simp only [ne_eq, hspent, not_false_eq_true, and_true, reduceCtorEq] at htokens ⊢
      exact htokens
  case oneshot =>
    intro d r hr
    rw [hepoll] at hr
    by_cases hd : d = fd
    · rw [if_pos hd] at hr
      cases hr
    · rw [if_neg hd] at hr
      exact h.oneshot d r hr
  case reported =>
    rw [hclosed.delivered]
    exact h.reported
  case direct =>
    rw [hclosed.tasks]
    exact h.direct

/-- A task is queued. -/
theorem OneToken.queues (h : OneToken (some fd) s) (hconnected : s.isConnected fd = true)
    (kind : TaskKind) :
    OneToken none { s with tasks := s.tasks ++ [{ kind := kind, user := fd, inProxy := false }] } := by
  refine ⟨h.own, ?_, h.oneshot, h.reported, ?_⟩
  · intro d
    have htokens := h.tokens d
    show s.armed d + s.unhandled d + List.countP _ (s.tasks ++ [_]) =
      if s.isConnected d = true ∧ none ≠ some d then 1 else 0
    rw [List.countP_append]
    by_cases hd : d = fd
    · subst hd
      rw [if_neg fun hspent => hspent.2 rfl] at htokens
      rw [if_pos ⟨hconnected, Option.some_ne_none d |>.symm⟩]
      simp only [outstanding] at htokens
      simp only [List.countP_singleton, decide_true, if_true]
      omega
    · have hspent : some fd ≠ some d := fun heq => hd (Option.some.inj heq).symm
      simp only [ne_eq, hspent, not_false_eq_true, and_true, reduceCtorEq] at htokens ⊢
      simp only [List.countP_singleton, decide_eq_false (Ne.symm hd)]
      exact htokens
  · intro task hmem
    rcases List.mem_append.mp hmem with hmem | hmem
    · exact h.direct task hmem
    · rw [List.mem_singleton.mp hmem]

theorem OneToken.not_connected (h : OneToken none s) (hfree : s.openFds fd = false) :
    s.isConnected fd = false := by
  apply Bool.eq_false_iff.mpr
  intro hconnected
  obtain ⟨c, hc, hcopen⟩ := isConnected_iff.mp hconnected
  have hopened := ((h.own fd c hc).2 hcopen).2
  rw [hfree] at hopened
  cases hopened

/-- A new connection, on a descriptor that was not open. -/
theorem OneToken.adds (h : OneToken none s) (hfree : s.openFds fd = false) {addr : SockAddr}
    (hadd : (s.openFd fd).addClient cfg fd addr (-1) = some s') : OneToken none s' := by
  have hadded := addClient_added hadd
  obtain ⟨client, husers, hfd, hproxy, hopen, -⟩ := hadded.users
  have hepoll : s'.epoll = (s.watch fd connEventIn).epoll := hadded.epoll
  have hnot := h.not_connected hfree
  constructor
  case own =>
    intro d c hc
    rw [husers] at hc
    rw [hadded.openFds, openFds_openFd]
    by_cases hd : d = fd
    · subst hd
      rw [Function.update_self] at hc
      obtain rfl := Option.some.inj hc
      exact ⟨hfd, fun _ => ⟨hproxy, if_pos rfl⟩⟩
    · rw [Function.update_of_ne hd] at hc
      obtain ⟨hown, hopened⟩ := h.own d c hc
      exact ⟨hown, fun hc' => ⟨(hopened hc').1, (if_neg hd).trans (hopened hc').2⟩⟩
  case tokens =>
    intro d
    have htokens := h.tokens d
    rw [unhandled, outstanding, hadded.delivered, hadded.tasks]
    by_cases hd : d = fd
    · subst hd
      have hconnected : s'.isConnected d = true :=
        isConnected_of_user (by rw [husers, Function.update_self]) hopen
      rw [if_neg (by rw [hnot]; rintro ⟨hfalse, -⟩; cases hfalse)] at htokens
      rw [if_pos ⟨hconnected, Option.some_ne_none d |>.symm⟩,
        armed_of_epoll_eq (show s'.epoll d = (s.watch d connEventIn).epoll d by rw [hepoll]),
        armed_watch_self]
      simp only [unhandled, outstanding] at htokens
      show 1 + s.delivered.countP _ + s.tasks.countP _ = 1
      omega
    · have hconnected : s'.isConnected d = s.isConnected d :=
        isConnected_of_users_eq (by rw [husers]; exact Function.update_of_ne hd ..)
      rw [hconnected,
        armed_of_epoll_eq (show s'.epoll d = (s.watch fd connEventIn).epoll d by rw [hepoll]),
        armed_watch_other connEventIn hd]
      exact htokens
  case oneshot =>
    intro d r hr
    rw [hepoll] at hr
    by_cases hd : d = fd
    · subst hd
      rw [watch_epoll_self] at hr
      obtain rfl := Option.some.inj hr
      rfl
    · rw [watch_epoll_other connEventIn hd] at hr
      exact h.oneshot d r hr
  case reported =>
    rw [hadded.delivered]
    exact h.reported
  case direct =>
    rw [hadded.tasks]
    exact h.direct

/-! ## Taking the token -/

/-- Epoll hands over an event for the watch it ends. -/
theorem OneToken.delivers (h : OneToken none s) {events : EpollEvents}
    (hdeliver : s.deliver fd events = some s') : OneToken none s' := by
  unfold HttpServer.deliver at hdeliver
  cases hr : s.epoll fd with
  | none => simp [hr] at hdeliver
  | some r =>
      simp only [hr, Option.ite_none_right_eq_some, Option.some.injEq] at hdeliver
      obtain ⟨⟨henabled, hreports, -⟩, rfl⟩ := hdeliver
      refine ⟨h.own, ?_, ?_, ?_, h.direct⟩
      · intro d
        have htokens := h.tokens d
        have hevent : List.countP (fun e => decide (e.1 = d)) (s.delivered ++ [(fd, events)]) =
            s.unhandled d + if fd = d then 1 else 0 := by
          rw [List.countP_append, List.countP_singleton]
          simp only [unhandled, decide_eq_true_eq]
        rw [unhandled, hevent]
        by_cases hd : d = fd
        · subst hd
          have hbefore : s.armed d = 1 := by simp [armed, hr, henabled]
          rw [hbefore] at htokens
          rw [if_pos rfl]
          have hafter : armed d { s with
              epoll := Function.update s.epoll d (some { r with enabled := !r.events.epolloneshot })
              delivered := s.delivered ++ [(d, events)] } = 0 := by
            simp [armed, h.oneshot d r hr]
          rw [hafter]
          show 0 + (s.unhandled d + 1) + s.outstanding d =
            if s.isConnected d = true ∧ none ≠ some d then 1 else 0
          omega
        · rw [if_neg (Ne.symm hd), Nat.add_zero,
            armed_of_epoll_eq (show Function.update s.epoll fd _ d = s.epoll d from
              Function.update_of_ne hd ..)]
          exact htokens
      · intro d r' hr'
        by_cases hd : d = fd
        · subst hd
          simp only [Function.update_self, Option.some.injEq] at hr'
          subst hr'
          exact h.oneshot d r hr
        · simp only [Function.update_of_ne hd] at hr'
          exact h.oneshot d r' hr'
      · intro e hmem
        rcases List.mem_append.mp hmem with hmem | hmem
        · exact h.reported e hmem
        · rw [List.mem_singleton.mp hmem]
          exact hreports.1

/-- The event loop turns to an event: its connection is open and has no other token. -/
theorem OneToken.pops (h : OneToken none s) {events : EpollEvents}
    {rest : List (Int × EpollEvents)} (hdelivered : s.delivered = (fd, events) :: rest) :
    s.isConnected fd = true ∧ OneToken (some fd) { s with delivered := rest } := by
  have hcount : ∀ d, s.unhandled d =
      unhandled d { s with delivered := rest } + if fd = d then 1 else 0 := by
    intro d
    simp only [unhandled, hdelivered, List.countP_cons, decide_eq_true_eq]
  have hconnected : s.isConnected fd = true := by
    by_contra hnot
    have htokens := h.tokens fd
    rw [if_neg fun hand => hnot hand.1, hcount, if_pos rfl] at htokens
    omega
  refine ⟨hconnected, h.own, ?_, h.oneshot, ?_, h.direct⟩
  · intro d
    have htokens := h.tokens d
    rw [hcount] at htokens
    show s.armed d + unhandled d { s with delivered := rest } + s.outstanding d =
      if s.isConnected d = true ∧ some fd ≠ some d then 1 else 0
    by_cases hd : fd = d
    · subst hd
      rw [if_pos rfl, if_pos ⟨hconnected, Option.some_ne_none fd |>.symm⟩] at htokens
      rw [if_neg fun hspent => hspent.2 rfl]
      omega
    · have hspent : some fd ≠ some d := fun heq => hd (Option.some.inj heq)
      rw [if_neg hd, Nat.add_zero] at htokens
      simp only [ne_eq, hspent, not_false_eq_true, and_true, reduceCtorEq] at htokens ⊢
      exact htokens
  · intro e hmem
    apply h.reported
    rw [hdelivered]
    exact List.mem_cons_of_mem _ hmem

/-- A task is run: its connection is open and has no other token. -/
theorem OneToken.runs (h : OneToken none s) {index : Nat} {task : Task}
    (htask : s.tasks[index]? = some task) :
    s.isConnected task.user = true ∧
      OneToken (some task.user) { s with tasks := s.tasks.eraseIdx index } := by
  have hcount : ∀ d, s.outstanding d =
      outstanding d { s with tasks := s.tasks.eraseIdx index } +
        if task.user = d then 1 else 0 := by
    intro d
    simp only [outstanding, countP_eraseIdx htask, decide_eq_true_eq]
  have hconnected : s.isConnected task.user = true := by
    by_contra hnot
    have htokens := h.tokens task.user
    rw [if_neg fun hand => hnot hand.1, hcount, if_pos rfl] at htokens
    omega
  refine ⟨hconnected, h.own, ?_, h.oneshot, h.reported, ?_⟩
  · intro d
    have htokens := h.tokens d
    rw [hcount] at htokens
    show s.armed d + s.unhandled d + outstanding d { s with tasks := s.tasks.eraseIdx index } =
      if s.isConnected d = true ∧ some task.user ≠ some d then 1 else 0
    by_cases hd : task.user = d
    · rw [if_pos hd, if_pos ⟨hd ▸ hconnected, Option.some_ne_none d |>.symm⟩] at htokens
      rw [if_neg fun hspent => hspent.2 (by rw [hd])]
      omega
    · have hspent : some task.user ≠ some d := fun heq => hd (Option.some.inj heq)
      rw [if_neg hd, Nat.add_zero] at htokens
      simp only [ne_eq, hspent, not_false_eq_true, and_true, reduceCtorEq] at htokens ⊢
      exact htokens
  · intro task' hmem
    exact h.direct task' (List.mem_of_mem_eraseIdx hmem)

/-! ## The tasks -/

/-- The connection, as the task leaves it, is watched again. -/
theorem OneToken.rewatch (h : OneToken (some fd) s) (huser : s.users fd = some client)
    (hopen : client.isClose = false) (hsame : SameEnds client client') {events : EpollEvents}
    (hevents : events.epolloneshot = true) :
    OneToken none ((s.setUser fd client').watch client'.fd events) := by
  have hfd : client'.fd = fd := hsame.fd.trans (h.own fd client huser).1
  rw [hfd]
  apply (h.setUser huser hsame).watch _ hevents
  exact isConnected_of_user setUser_users_self (hsame.isClose.trans hopen)

theorem OneToken.reads (h : OneToken (some fd) s) (hconnected : s.isConnected fd = true)
    (hstatic : cfg.isSetProxy = false) {w : TaskWorld} (hread : s.onRead cfg w fd = some s') :
    OneToken none s' := by
  obtain ⟨client, huser, hopen⟩ := isConnected_iff.mp hconnected
  unfold onRead at hread
  rw [userAt_of_user huser] at hread
  simp only [bind, Option.bind, hstatic, Bool.false_eq_true, if_false] at hread
  by_cases hend : w.readRet ≤ 0 ∧ w.readError ≠ .eagain
  · rw [if_pos hend] at hread
    have hreads : SameEnds client (client.readFromFd w.reads) := ⟨rfl, rfl, rfl⟩
    exact (h.setUser huser hreads).closes setUser_users_self hopen hread hstatic
  · rw [if_neg hend] at hread
    unfold onProcessStatic at hread
    cases hprocess : (client.readFromFd w.reads).process cfg.js w.fs cfg.webRoot with
    | error e => simp [hprocess] at hread
    | ok p =>
        obtain ⟨result, client'⟩ := p
        obtain ⟨hfd, hproxy, hclosed⟩ := process_same hprocess
        have hsame : SameEnds client client' := ⟨hfd, hproxy, hclosed⟩
        rw [hprocess] at hread
        -- each answer of `Process` watches the client again
        cases result with
        | finish =>
            obtain rfl := Option.some.inj hread
            exact h.rewatch huser hopen hsame rfl
        | pending =>
            obtain rfl := Option.some.inj hread
            exact h.rewatch huser hopen hsame rfl
        | fail =>
            obtain rfl := Option.some.inj hread
            exact h.rewatch huser hopen hsame rfl

theorem OneToken.writes (h : OneToken (some fd) s) (hconnected : s.isConnected fd = true)
    (hstatic : cfg.isSetProxy = false) (htimeout : cfg.timeout = 0) {w : TaskWorld}
    (hwrite : s.onWrite cfg w fd false = some s') : OneToken none s' := by
  obtain ⟨client, huser, hopen⟩ := isConnected_iff.mp hconnected
  have hsame : SameEnds client (client.writeToFd w.last w.counts).2 :=
    (writeLoop_same w.last w.counts 0 client).1
  obtain ⟨write, client', hpair⟩ : ∃ write client',
      client.writeToFd w.last w.counts = (write, client') := ⟨_, _, rfl⟩
  rw [hpair] at hsame
  rw [onWrite_of_user huser hpair, onWritten, if_neg fun h => Bool.false_ne_true h.2] at hwrite
  by_cases hkeep : client'.pendingWriteBytes = 0 ∧ client'.isKeepAlive = true
  · rw [if_pos hkeep, extentTime_off htimeout] at hwrite
    obtain rfl := Option.some.inj hwrite
    exact h.rewatch huser hopen hsame rfl
  · rw [if_neg hkeep] at hwrite
    split at hwrite
    case isTrue =>
      obtain rfl := Option.some.inj hwrite
      exact h.rewatch huser hopen hsame rfl
    case isFalse =>
      exact (h.setUser huser hsame).closes setUser_users_self (hsame.isClose.trans hopen) hwrite
        hstatic

/-! ## The steps -/

theorem OneToken.runTask (h : OneToken none s) (hstatic : cfg.isSetProxy = false)
    (htimeout : cfg.timeout = 0) {index : Nat} {w : TaskWorld} (hrun : s.runTask cfg index w = some s') : OneToken none s' := by
  unfold HttpServer.runTask at hrun
  cases htask : s.tasks[index]? with
  | none => simp [htask] at hrun
  | some task =>
      obtain ⟨hconnected, hspent⟩ := h.runs htask
      have hdirect := h.direct task (List.mem_of_getElem? htask)
      simp only [htask] at hrun
      cases hkind : task.kind with
      | onRead =>
          rw [hkind] at hrun
          exact hspent.reads hconnected hstatic hrun
      | onWrite =>
          rw [hkind, hdirect] at hrun
          exact hspent.writes hconnected hstatic htimeout hrun

theorem OneToken.dealTask (h : OneToken (some fd) s) (hconnected : s.isConnected fd = true)
    (hstatic : cfg.isSetProxy = false) (htimeout : cfg.timeout = 0) {kind : TaskKind}
    (hdeal : s.dealTask cfg kind fd = some s') : OneToken none s' := by
  obtain ⟨client, huser, -⟩ := isConnected_iff.mp hconnected
  simp only [HttpServer.dealTask, hstatic, Bool.false_eq_true, if_false,
    userAt_of_user huser, bind, Option.bind, extentTime_off htimeout, Option.some.injEq] at hdeal
  subst hdeal
  exact h.queues hconnected kind

theorem OneToken.handle (h : OneToken none s) (hstatic : cfg.isSetProxy = false)
    (htimeout : cfg.timeout = 0) {connects : List Connect}
    (hhandle : s.handle cfg connects = some s') : OneToken none s' := by
  unfold HttpServer.handle at hhandle
  cases hdelivered : s.delivered with
  | nil => simp [hdelivered] at hhandle
  | cons e rest =>
      obtain ⟨fd, events⟩ := e
      obtain ⟨hconnected, hspent⟩ := h.pops hdelivered
      have hreported : (events.epollin || events.epollout || events.hangsUp) = true :=
        h.reported (fd, events) (by rw [hdelivered]; exact List.mem_cons_self)
      obtain ⟨client, huser, hopen⟩ := isConnected_iff.mp hconnected
      simp only [hdelivered] at hhandle
      by_cases hhup : events.hangsUp = true
      · simp only [hhup, if_true, dealDisconnect, hstatic, Bool.false_eq_true, false_and,
          if_false] at hhandle
        exact hspent.closes huser hopen hhandle hstatic
      · rw [if_neg hhup] at hhandle
        by_cases hin : events.epollin = true
        · rw [if_pos hin] at hhandle
          exact hspent.dealTask hconnected hstatic htimeout hhandle
        · rw [if_neg hin] at hhandle
          by_cases hout : events.epollout = true
          · rw [if_pos hout] at hhandle
            exact hspent.dealTask hconnected hstatic htimeout hhandle
          · -- the report was not empty
            simp [hin, hout, hhup] at hreported

/-- The client that is turned away as the server is full. -/
theorem OneToken.refuses (h : OneToken none s) (hfree : s.openFds fd = false) :
    OneToken none ((s.openFd fd).closeFd .server fd) := by
  have hnot := h.not_connected hfree
  refine ⟨?_, ?_, ?_, h.reported, h.direct⟩
  · intro d c hc
    obtain ⟨hown, hopened⟩ := h.own d c hc
    refine ⟨hown, fun hcopen => ⟨(hopened hcopen).1, ?_⟩⟩
    have hd : d ≠ fd := by
      rintro rfl
      have hconnected : s.isConnected d = true := isConnected_of_user hc hcopen
      rw [hnot] at hconnected
      cases hconnected
    rw [openFds_closeFd, if_neg hd, openFds_openFd, if_neg hd]
    exact (hopened hcopen).2
  · intro d
    have htokens := h.tokens d
    show armed d ((s.openFd fd).closeFd .server fd) + s.unhandled d + s.outstanding d =
      if s.isConnected d = true ∧ none ≠ some d then 1 else 0
    rw [← htokens]
    by_cases hd : d = fd
    · subst hd
      rw [if_neg (by rw [hnot]; rintro ⟨hfalse, -⟩; cases hfalse)] at htokens
      rw [armed_of_none (show ((s.openFd d).closeFd .server d).epoll d = none from
        Function.update_self ..)]
      omega
    · rw [armed_of_epoll_eq (show ((s.openFd fd).closeFd .server fd).epoll d = s.epoll d from
        Function.update_of_ne hd ..)]
  · intro d r hr
    by_cases hd : d = fd
    · subst hd
      rw [show ((s.openFd d).closeFd .server d).epoll d = none from Function.update_self ..] at hr
      cases hr
    · rw [show ((s.openFd fd).closeFd .server fd).epoll d = s.epoll d from
        Function.update_of_ne hd ..] at hr
      exact h.oneshot d r hr

theorem OneToken.dealListen (hstatic : cfg.isSetProxy = false) :
    ∀ (accepts : List Accept) (s : HttpServer J), OneToken none s →
      s.dealListen cfg accepts = some s' → OneToken none s' := by
  intro accepts
  induction accepts with
  | nil =>
      intro s h hlisten
      obtain rfl := Option.some.inj hlisten
      exact h
  | cons a rest ih =>
      intro s h hlisten
      rw [HttpServer.dealListen] at hlisten
      by_cases hneg : a.fd < 0
      · rw [if_pos hneg] at hlisten
        obtain rfl := Option.some.inj hlisten
        exact h
      · rw [if_neg hneg] at hlisten
        cases hfree : s.openFds a.fd with
        | true => simp [hfree] at hlisten
        | false =>
            simp only [hfree, hstatic, Bool.false_eq_true, if_false] at hlisten
            split at hlisten
            case isTrue =>
              obtain rfl := Option.some.inj hlisten
              exact h.refuses hfree
            case isFalse =>
              obtain ⟨s₁, hadd, hrest⟩ := Option.bind_eq_some_iff.mp hlisten
              exact ih s₁ (h.adds hfree hadd) hrest

theorem OneToken.serverStep (h : OneToken none s) (hstatic : cfg.isSetProxy = false)
    (htimeout : cfg.timeout = 0) {step : ServerStep} (hstep : WhiteWebServer.HttpServer.serverStep cfg s step = some s') :
    OneToken none s' := by
  cases step with
  | listen accepts => exact dealListen hstatic accepts s h hstep
  | deliver fd events => exact h.delivers hstep
  | handle connects => exact h.handle hstatic htimeout hstep
  | run index w => exact h.runTask hstatic htimeout hstep
  | elapse ms =>
      obtain rfl := Option.some.inj hstep
      exact ⟨h.own, h.tokens, h.oneshot, h.reported, h.direct⟩
  | expire fd =>
      rw [HttpServer.serverStep, expire_off htimeout] at hstep
      cases hstep

theorem OneToken.new : OneToken none (HttpServer.new : HttpServer J) := by
  constructor
  case own =>
    intro fd client hc
    cases hc
  case tokens =>
    intro fd
    rfl
  case oneshot =>
    intro fd r hr
    cases hr
  case reported =>
    intro e hmem
    cases hmem
  case direct =>
    intro task hmem
    cases hmem

/-! ## Runs -/

/-- After every run a connection has one token while it is open, and none when it is
closed. -/
theorem static_one_token (hstatic : cfg.isSetProxy = false) (htimeout : cfg.timeout = 0)
    {steps : List ServerStep} {os : List Unit} (hrun : (server cfg).run steps = some (s, os))
    (huser : s.users fd = some client) :
    client.fd = fd ∧ s.armed fd + s.unhandled fd + s.outstanding fd =
      if client.isConnected = true then 1 else 0 := by
  have htoken : OneToken none s := by
    apply Machine.run_invariant OneToken.new _ hrun
    intro s₁ step s₂ o h hstep
    exact h.serverStep hstatic htimeout (server_step.mp hstep)
  have hconnected : s.isConnected fd = client.isConnected := by rw [isConnected, huser]
  refine ⟨(htoken.own fd client huser).1, ?_⟩
  rw [htoken.tokens fd, hconnected]
  simp only [ne_eq, reduceCtorEq, not_false_eq_true, and_true]

/-- A server with no files. -/
def emptySite (isSetProxy : Bool) : ServerConfig (Option HeaderMap) :=
  { isSetProxy := isSetProxy, timeout := 0, webRoot := ascii "/var/www", indexFile := some [],
    js := HttpRequest.membersJson,
    junk := fun _ => ⟨0, .pendingReadFromClient, 0, ⟨.wild, 0⟩, ⟨.wild, 0⟩, ⟨false, false, 0⟩⟩ }

/-- A task that reads `data`, or writes `count` bytes, and then finds the socket busy. -/
def busyAfter (data : Bytes) (count : Nat) : TaskWorld :=
  { reads := [data], readRet := -1, readError := .eagain, counts := [count],
    last := ⟨-1, some .eagain⟩, fs := noFiles, entries := fun _ => [] }

/-- Two clients; the first sends its request in two parts, takes ten bytes of the
answer and hangs up. -/
def twoClients : List ServerStep :=
  [.listen [⟨5, ⟨10, 0, 0, 7⟩, .noSocket⟩, ⟨6, ⟨10, 0, 0, 8⟩, .noSocket⟩], .deliver 5 EPOLLIN, .handle [],
    .run 0 (busyAfter (ascii "GET / HTT") 0), .deliver 5 EPOLLIN, .handle [],
    .run 0 (busyAfter (ascii "P/1.1\r\n\r\n") 0),
    .deliver 5 { EPOLLIN with epollin := false, epollout := true }, .handle [],
    .run 0 (busyAfter [] 10), .deliver 5 { EPOLLIN with epollin := false, epollhup := true },
    .handle []]

theorem static_one_token_two :
    ∃ s os client₅ client₆, (server (emptySite false)).run twoClients = some (s, os) ∧
      s.users 5 = some client₅ ∧ client₅.isConnected = false ∧
      s.armed 5 + s.unhandled 5 + s.outstanding 5 = 0 ∧
      s.users 6 = some client₆ ∧ client₆.isConnected = true ∧
      s.armed 6 + s.unhandled 6 + s.outstanding 6 = 1 := by
  have hclients : (((server (emptySite false)).run twoClients).bind fun r =>
      (r.1.users 5).bind fun client₅ => (r.1.users 6).map fun client₆ =>
        (client₅.isConnected, client₆.isConnected)) = some (false, true) := by
    decide +kernel
  obtain ⟨⟨s, os⟩, hrun, hclients⟩ := Option.bind_eq_some_iff.mp hclients
  obtain ⟨client₅, h₅, hclients⟩ := Option.bind_eq_some_iff.mp hclients
  obtain ⟨client₆, h₆, hclients⟩ := Option.map_eq_some_iff.mp hclients
  obtain ⟨hclosed, hopen⟩ := Prod.mk.inj hclients
  have hstatic : (emptySite false).isSetProxy = false := rfl
  have htoken₅ := (static_one_token hstatic rfl hrun h₅).2
  have htoken₆ := (static_one_token hstatic rfl hrun h₆).2
  rw [hclosed] at htoken₅
  rw [hopen] at htoken₆
  exact ⟨s, os, client₅, client₆, hrun, h₅, hclosed, htoken₅, h₆, hopen, htoken₆⟩

end HttpServer

end WhiteWebServer
