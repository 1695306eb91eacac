import WhiteWebServer.StaticTokens

/-!
# Proxy mode: the client's turn and the backend's

Two descriptors feed one connection. While it waits for a request the one token
is on the client's side, and the backend's descriptor is watched for nothing but
its end. While it waits for the backend the client is not watched. The server
keeps to this as long as each backend speaks in its turn (`InTurn`).
-/

namespace WhiteWebServer

open HttpConn

namespace HttpServer

variable {J : Type} {cfg : ServerConfig J} {s s' s'' : HttpServer J} {fd : Int}
  {client client' : HttpConn J}

/-! ## Counting -/

/-- Events of one kind that are delivered and not handled. -/
def events (fd : Int) (kind : EpollEvents → Bool) (s : HttpServer J) : Nat :=
  s.delivered.countP (fun e => e.1 = fd && kind e.2)

/-- Tasks of a connection on one of its sides. -/
def tasksOf (fd : Int) (inProxy : Bool) (s : HttpServer J) : Nat :=
  s.tasks.countP (fun task => task.user = fd && task.inProxy = inProxy)

/-- The event has something to read or to write. -/
def isWork (events : EpollEvents) : Bool := !events.hangsUp

theorem unhandled_eq_add (fd : Int) (s : HttpServer J) :
    s.unhandled fd = s.events fd EpollEvents.hangsUp + s.events fd isWork := by
  unfold unhandled events isWork
  induction s.delivered with
  | nil => rfl
  | cons e rest ih =>
      simp only [List.countP_cons, ih]
      cases e.2.hangsUp <;> by_cases hd : e.1 = fd <;> simp [hd] <;> omega

theorem outstanding_eq_add (fd : Int) (s : HttpServer J) :
    s.outstanding fd = s.tasksOf fd false + s.tasksOf fd true := by
  unfold outstanding tasksOf
  induction s.tasks with
  | nil => rfl
  | cons task rest ih =>
      simp only [List.countP_cons, ih]
      cases task.inProxy <;> by_cases hd : task.user = fd <;> simp [hd] <;> omega

theorem events_pop {d : Int} {ev : EpollEvents} {rest : List (Int × EpollEvents)}
    (hdelivered : s.delivered = (d, ev) :: rest) (fd : Int) (kind : EpollEvents → Bool) :
    s.events fd kind = events fd kind { s with delivered := rest } +
      if d = fd ∧ kind ev = true then 1 else 0 := by
  simp only [events, hdelivered, List.countP_cons, Bool.and_eq_true, decide_eq_true_eq]

theorem tasksOf_erase {index : Nat} {task : Task} (htask : s.tasks[index]? = some task)
    (fd : Int) (inProxy : Bool) :
    s.tasksOf fd inProxy = tasksOf fd inProxy { s with tasks := s.tasks.eraseIdx index } +
      if task.user = fd ∧ task.inProxy = inProxy then 1 else 0 := by
  simp only [tasksOf, countP_eraseIdx htask, Bool.and_eq_true, decide_eq_true_eq]

theorem tasksOf_queue (task : Task) (fd : Int) (inProxy : Bool) :
    tasksOf fd inProxy { s with tasks := s.tasks ++ [task] } = s.tasksOf fd inProxy +
      if task.user = fd ∧ task.inProxy = inProxy then 1 else 0 := by
  simp only [tasksOf, List.countP_append, List.countP_singleton, Bool.and_eq_true,
    decide_eq_true_eq]

/-! ## One connection -/

/-- What there is of a connection outside of it: the tokens of its client's side, the
watch of its backend, the backend's events with something to do and the tasks for them,
and the ends of the backend. -/
@[ext]
structure View where
  state : ProxyProcessState
  client : Nat
  proxyArmed : Nat
  proxyWork : Nat
  proxyEnds : Nat

def view (fd : Int) (client : HttpConn J) (s : HttpServer J) : View :=
  { state := client.proxyProcessState,
    client := s.armed fd + s.unhandled fd + s.tasksOf fd false,
    proxyArmed := s.armed client.proxyFd,
    proxyWork := s.events client.proxyFd isWork + s.tasksOf fd true,
    proxyEnds := s.events client.proxyFd EpollEvents.hangsUp }

/-- The one token of a connection is on the side whose turn it is. -/
def View.Balanced (v : View) : Prop :=
  match v.state with
  | .pendingReadFromClient => v.client = 1 ∧ v.proxyWork = 0
  | .pendingReadFromProxyServer => v.client = 0 ∧
      (v.proxyWork = 1 ∧ v.proxyArmed = 0 ∧ v.proxyEnds = 0 ∨
        v.proxyWork = 0 ∧ (v.proxyArmed = 1 ∨ 1 ≤ v.proxyEnds))
  | _ => False

/-- The token is in the hands of a task. -/
def View.Spent (v : View) : Prop := v.client = 0 ∧ v.proxyWork = 0

/-- The invariant of proxy mode. -/
structure ProxyTokens (s : HttpServer J) : Prop where
  own : ∀ fd client, s.users fd = some client → client.isClose = false →
    client.fd = fd ∧ client.proxyFd ≠ -1 ∧ s.openFds fd = true ∧
      s.openFds client.proxyFd = true ∧ s.proxyFdMap client.proxyFd = some fd
  mapped : ∀ p fd, s.proxyFdMap p = some fd → s.isConnected p = false ∧
    ∃ client, s.users fd = some client ∧ client.isClose = false ∧ client.proxyFd = p
  balanced : ∀ fd client, s.users fd = some client → client.isClose = false →
    (s.view fd client).Balanced
  oneshot : ∀ fd r, s.isConnected fd = true → s.epoll fd = some r → r.events.epolloneshot = true
  strays : ∀ fd, s.isConnected fd = false → s.proxyFdMap fd = none →
    s.armed fd = 0 ∧ s.unhandled fd = 0
  idle : ∀ fd, s.isConnected fd = false → s.outstanding fd = 0
  once : ∀ fd, s.unhandled fd ≤ 1
  reported : ∀ e ∈ s.delivered, (e.2.epollin || e.2.epollout || e.2.hangsUp) = true

/-- The step has changed nothing but the connection of `fd` and the watches and events
of the descriptors in `touched`. -/
structure Outside (touched : Int → Prop) (fd : Int) (s s' : HttpServer J) : Prop where
  users : ∀ d, d ≠ fd → s'.users d = s.users d
  epoll : ∀ d, ¬ touched d → s'.epoll d = s.epoll d
  events : ∀ d kind, ¬ touched d → s'.events d kind = s.events d kind
  tasks : ∀ d inProxy, d ≠ fd → s'.tasksOf d inProxy = s.tasksOf d inProxy

theorem Outside.trans {touched : Int → Prop} (h₁ : Outside touched fd s s')
    (h₂ : Outside touched fd s' s'') : Outside touched fd s s'' := by
  constructor
  case users =>
    intro d hd
    rw [h₂.users d hd, h₁.users d hd]
  case epoll =>
    intro d hd
    rw [h₂.epoll d hd, h₁.epoll d hd]
  case events =>
    intro d kind hd
    rw [h₂.events d kind hd, h₁.events d kind hd]
  case tasks =>
    intro d inProxy hd
    rw [h₂.tasks d inProxy hd, h₁.tasks d inProxy hd]

/-- The two descriptors of a connection. -/
def endsOf (fd : Int) (client : HttpConn J) (d : Int) : Prop := d = fd ∨ d = client.proxyFd

theorem Outside.unhandled_eq {touched : Int → Prop} (hout : Outside touched fd s s') {d : Int}
    (hd : ¬ touched d) : s'.unhandled d = s.unhandled d := by
  rw [unhandled_eq_add, unhandled_eq_add, hout.events d _ hd, hout.events d _ hd]

theorem Outside.outstanding_eq {touched : Int → Prop} (hout : Outside touched fd s s') {d : Int}
    (hd : d ≠ fd) : s'.outstanding d = s.outstanding d := by
  rw [outstanding_eq_add, outstanding_eq_add, hout.tasks d _ hd, hout.tasks d _ hd]

theorem Outside.view_eq {touched : Int → Prop} (hout : Outside touched fd s s') {d : Int}
    {c : HttpConn J} (hd : d ≠ fd) (hclient : ¬ touched d) (hproxy : ¬ touched c.proxyFd) :
    s'.view d c = s.view d c := by
  rw [view, view, armed_of_epoll_eq (hout.epoll d hclient), hout.unhandled_eq hclient,
    hout.tasks d _ hd, hout.tasks d _ hd, armed_of_epoll_eq (hout.epoll c.proxyFd hproxy),
    hout.events c.proxyFd _ hproxy, hout.events c.proxyFd _ hproxy]

/-- Two connections have four descriptors. -/
theorem ProxyTokens.apart (h : ProxyTokens s) (huser : s.users fd = some client)
    (hopen : client.isClose = false) {d : Int} {c : HttpConn J} (hd : d ≠ fd)
    (huser' : s.users d = some c) (hopen' : c.isClose = false) :
    ¬ endsOf fd client d ∧ ¬ endsOf fd client c.proxyFd := by
  obtain ⟨-, -, -, -, hmap⟩ := h.own fd client huser hopen
  obtain ⟨-, -, -, -, hmap'⟩ := h.own d c huser' hopen'
  constructor
  · rintro (rfl | rfl)
    · exact hd rfl
    · have hconnected := isConnected_of_user huser' hopen'
      rw [(h.mapped _ fd hmap).1] at hconnected
      cases hconnected
  · rintro (heq | heq)
    · have hconnected := isConnected_of_user huser hopen
      rw [← heq, (h.mapped _ d hmap').1] at hconnected
      cases hconnected
    · rw [heq, hmap] at hmap'
      exact hd (Option.some.inj hmap').symm

/-- A step that is about one connection only. -/
theorem ProxyTokens.turn (h : ProxyTokens s) (huser : s.users fd = some client)
    (hopen : client.isClose = false) (hout : Outside (endsOf fd client) fd s s')
    (hmap : s'.proxyFdMap = s.proxyFdMap) (hfds : s'.openFds = s.openFds)
    (huser' : s'.users fd = some client') (hsame : SameEnds client client')
    (hbalanced : (s'.view fd client').Balanced)
    (honeshot : ∀ r, s'.epoll fd = some r → r.events.epolloneshot = true)
    (honce : ∀ d, endsOf fd client d → s'.unhandled d ≤ 1)
    (hreported : ∀ e ∈ s'.delivered, (e.2.epollin || e.2.epollout || e.2.hangsUp) = true) :
    ProxyTokens s' := by
  have hconnected : ∀ d, s'.isConnected d = s.isConnected d := by
    intro d
    by_cases hd : d = fd
    · subst hd
      rw [isConnected_of_user huser hopen, isConnected_of_user huser' (hsame.isClose.trans hopen)]
    · exact isConnected_of_users_eq (hout.users d hd)
  have howned := h.own fd client huser hopen
  constructor
  case own =>
    intro d c hc hcopen
    rw [hmap, hfds]
    by_cases hd : d = fd
    · subst hd
      rw [huser'] at hc
      obtain rfl := Option.some.inj hc
      rw [hsame.fd, hsame.proxyFd]
      exact howned
    · rw [hout.users d hd] at hc
      exact h.own d c hc hcopen
  case mapped =>
    intro p d hp
    rw [hmap] at hp
    obtain ⟨hnot, c, hc, hcopen, hcp⟩ := h.mapped p d hp
    refine ⟨(hconnected p).trans hnot, ?_⟩
    by_cases hd : d = fd
    · subst hd
      rw [huser] at hc
      obtain rfl := Option.some.inj hc
      exact ⟨client', huser', hsame.isClose.trans hopen, hsame.proxyFd.trans hcp⟩
    · exact ⟨c, (hout.users d hd).trans hc, hcopen, hcp⟩
  case balanced =>
    intro d c hc hcopen
    by_cases hd : d = fd
    · subst hd
      rw [huser'] at hc
      obtain rfl := Option.some.inj hc
      exact hbalanced
    · rw [hout.users d hd] at hc
      obtain ⟨hclient, hproxy⟩ := h.apart huser hopen hd hc hcopen
      rw [hout.view_eq hd hclient hproxy]
      exact h.balanced d c hc hcopen
  case oneshot =>
    intro d r hd hr
    rw [hconnected] at hd
    by_cases hdfd : d = fd
    · subst hdfd
      exact honeshot r hr
    · obtain ⟨c, hc, hcopen⟩ := isConnected_iff.mp hd
      rw [hout.epoll d (h.apart huser hopen hdfd hc hcopen).1] at hr
      exact h.oneshot d r hd hr
  case strays =>
    intro d hd hdmap
    rw [hconnected] at hd
    rw [hmap] at hdmap
    have hends : ¬ endsOf fd client d := by
      rintro (rfl | rfl)
      · rw [isConnected_of_user huser hopen] at hd
        cases hd
      · rw [howned.2.2.2.2] at hdmap
        cases hdmap
    rw [armed_of_epoll_eq (hout.epoll d hends), hout.unhandled_eq hends]
    exact h.strays d hd hdmap
  case idle =>
    intro d hd
    rw [hconnected] at hd
    have hne : d ≠ fd := by
      rintro rfl
      rw [isConnected_of_user huser hopen] at hd
      cases hd
    rw [hout.outstanding_eq hne]
    exact h.idle d hd
  case once =>
    intro d
    by_cases hends : endsOf fd client d
    · exact honce d hends
    · rw [hout.unhandled_eq hends]
      exact h.once d
  case reported => exact hreported

theorem Closed.outside (hclosed : Closed cfg fd client s s') (hfd : client.fd = fd) :
    Outside (endsOf fd client) fd s s' := by
  obtain ⟨closed, husers, -, -⟩ := hclosed.users
  constructor
  case users =>
    intro d hd
    rw [husers, Function.update_of_ne hd]
  case epoll =>
    intro d hd
    rw [hclosed.epoll d, hfd, if_neg]
    rintro (heq | ⟨heq, -⟩)
    · exact hd (Or.inl heq)
    · exact hd (Or.inr heq)
  case events =>
    intro d kind hd
    rw [events, events, hclosed.delivered]
  case tasks =>
    intro d inProxy hd
    rw [tasksOf, tasksOf, hclosed.tasks]

/-- A connection that has nothing left outside is closed. -/
theorem ProxyTokens.closes (h : ProxyTokens s) (huser : s.users fd = some client)
    (hopen : client.isClose = false) (hout : Outside (endsOf fd client) fd s s')
    (hmap : s'.proxyFdMap = s.proxyFdMap) (hfds : s'.openFds = s.openFds)
    (huser' : s'.users fd = some client') (hsame : SameEnds client client')
    (hevents : ∀ d, endsOf fd client d → s'.unhandled d = 0) (htasks : s'.outstanding fd = 0)
    (hreported : ∀ e ∈ s'.delivered, (e.2.epollin || e.2.epollout || e.2.hangsUp) = true)
    (hproxy : cfg.isSetProxy = true) (hclose : s'.closeConn cfg fd = some s'') :
    ProxyTokens s'' := by
  have hclosed := closeConn_closed hclose huser' (hsame.isClose.trans hopen)
  obtain ⟨closed, husers, hisClose, -⟩ := hclosed.users
  obtain ⟨hfd, hne, hfdOpen, hpOpen, howned⟩ := h.own fd client huser hopen
  have hepoll : ∀ d, endsOf fd client d → s''.epoll d = none := by
    intro d hd
    rw [hclosed.epoll d, hsame.fd, hsame.proxyFd, hfd, if_pos]
    rcases hd with rfl | rfl
    · exact Or.inl rfl
    · exact Or.inr ⟨rfl, Or.inl hproxy⟩
  have hunhandled : ∀ d, s''.unhandled d = s'.unhandled d := by
    intro d
    rw [unhandled, unhandled, hclosed.delivered]
  have hends' : endsOf fd client' = endsOf fd client := by
    ext d
    rw [endsOf, endsOf, hsame.proxyFd]
  have hwhole := hout.trans (hends' ▸ hclosed.outside (hsame.fd.trans hfd))
  have hmap' : s''.proxyFdMap = Function.update s.proxyFdMap client.proxyFd none := by
    rw [hclosed.proxyFdMap, if_pos hproxy, hsame.proxyFd, hmap]
  have hself : s''.isConnected fd = false := by
    simp [isConnected, husers, HttpConn.isConnected, hisClose]
  have hother : ∀ d, d ≠ fd → s''.isConnected d = s.isConnected d := fun d hd =>
    isConnected_of_users_eq (hwhole.users d hd)
  constructor
  case own =>
    intro d c hc hcopen
    have hd : d ≠ fd := by
      rintro rfl
      rw [isConnected_of_user hc hcopen] at hself
      cases hself
    rw [hwhole.users d hd] at hc
    obtain ⟨hcfd, hcne, hcOpen, hcpOpen, hcmap⟩ := h.own d c hc hcopen
    obtain ⟨hclient, hcproxy⟩ := h.apart huser hopen hd hc hcopen
    have hkept : ∀ x, ¬ endsOf fd client x → s''.openFds x = s.openFds x := by
      intro x hx
      rw [hclosed.openFds x, hsame.fd, hsame.proxyFd, hfd, hfds, if_neg]
      rintro (heq | ⟨heq, -⟩)
      · exact hx (Or.inl heq)
      · exact hx (Or.inr heq)
    refine ⟨hcfd, hcne, (hkept d hclient).trans hcOpen, (hkept _ hcproxy).trans hcpOpen, ?_⟩
    rw [hmap', Function.update_of_ne fun heq => hcproxy (Or.inr heq)]
    exact hcmap
  case mapped =>
    intro p d hp
    have hpne : p ≠ client.proxyFd := by
      rintro rfl
      rw [hmap', Function.update_self] at hp
      cases hp
    rw [hmap', Function.update_of_ne hpne] at hp
    obtain ⟨hnot, c, hc, hcopen, hcp⟩ := h.mapped p d hp
    have hd : d ≠ fd := by
      rintro rfl
      rw [huser] at hc
      obtain rfl := Option.some.inj hc
      exact hpne hcp.symm
    refine ⟨?_, c, (hwhole.users d hd).trans hc, hcopen, hcp⟩
    by_cases hpfd : p = fd
    · rw [hpfd]
      exact hself
    · exact (hother p hpfd).trans hnot
  case balanced =>
    intro d c hc hcopen
    have hd : d ≠ fd := by
      rintro rfl
      rw [isConnected_of_user hc hcopen] at hself
      cases hself
    rw [hwhole.users d hd] at hc
    obtain ⟨hclient, hcproxy⟩ := h.apart huser hopen hd hc hcopen
    rw [hwhole.view_eq hd hclient hcproxy]
    exact h.balanced d c hc hcopen
  case oneshot =>
    intro d r hd hr
    have hends : ¬ endsOf fd client d := fun hends => by
      rw [hepoll d hends] at hr
      cases hr
    rw [hother d fun heq => hends (Or.inl heq)] at hd
    rw [hwhole.epoll d hends] at hr
    exact h.oneshot d r hd hr
  case strays =>
    intro d hd hdmap
    by_cases hends : endsOf fd client d
    · exact ⟨armed_of_none (hepoll d hends), (hunhandled d).trans (hevents d hends)⟩
    · rw [hother d fun heq => hends (Or.inl heq)] at hd
      rw [hmap', Function.update_of_ne fun heq => hends (Or.inr heq)] at hdmap
      rw [armed_of_epoll_eq (hwhole.epoll d hends), hwhole.unhandled_eq hends]
      exact h.strays d hd hdmap
  case idle =>
    intro d hd
    by_cases hdfd : d = fd
    · subst hdfd
      rw [outstanding, hclosed.tasks]
      exact htasks
    · rw [hwhole.outstanding_eq hdfd]
      exact h.idle d ((hother d hdfd).symm.trans hd)
  case once =>
    intro d
    by_cases hends : endsOf fd client d
    · rw [hunhandled, hevents d hends]
      exact Nat.zero_le 1
    · rw [hwhole.unhandled_eq hends]
      exact h.once d
  case reported =>
    rw [hclosed.delivered]
    exact hreported

/-! ## What the pieces of a step touch -/

section pieces

variable (touched : Int → Prop)

theorem setUser_outside (client : HttpConn J) : Outside touched fd s (s.setUser fd client) :=
  ⟨fun _ hd => setUser_users_other hd, fun _ _ => rfl, fun _ _ _ => rfl, fun _ _ _ => rfl⟩

theorem watch_outside {d : Int} (ev : EpollEvents) (htouched : touched d) :
    Outside touched fd s (s.watch d ev) := by
  refine ⟨fun _ _ => rfl, fun x hx => ?_, fun _ _ _ => rfl, fun _ _ _ => rfl⟩
  apply watch_epoll_other
  rintro rfl
  exact hx htouched

theorem erase_outside {index : Nat} {task : Task} (htask : s.tasks[index]? = some task) :
    Outside touched task.user s { s with tasks := s.tasks.eraseIdx index } := by
  refine ⟨fun _ _ => rfl, fun _ _ => rfl, fun _ _ _ => rfl, fun x inProxy hx => ?_⟩
  rw [tasksOf_erase htask x inProxy, if_neg fun hand => hx hand.1.symm, Nat.add_zero]

theorem queue_outside (task : Task) :
    Outside touched task.user s { s with tasks := s.tasks ++ [task] } := by
  refine ⟨fun _ _ => rfl, fun _ _ => rfl, fun _ _ _ => rfl, fun x inProxy hx => ?_⟩
  rw [tasksOf_queue task x inProxy, if_neg fun hand => hx hand.1.symm, Nat.add_zero]

theorem pop_outside (fd : Int) {d : Int} {ev : EpollEvents} {rest : List (Int × EpollEvents)}
    (hdelivered : s.delivered = (d, ev) :: rest) (htouched : touched d) :
    Outside touched fd s { s with delivered := rest } := by
  refine ⟨fun _ _ => rfl, fun _ _ => rfl, fun x kind hx => ?_, fun _ _ _ => rfl⟩
  rw [events_pop hdelivered x kind, if_neg, Nat.add_zero]
  rintro ⟨rfl, -⟩
  exact hx htouched

end pieces

/-! ## The tasks -/

/-- Whose task it is, and that it holds the connection's token. -/
structure Taken (task : Task) (client : HttpConn J) (s : HttpServer J) : Prop where
  user : s.users task.user = some client
  isOpen : client.isClose = false
  spent : (s.view task.user client).Spent
  turn : client.proxyProcessState =
    if task.inProxy then .pendingReadFromProxyServer else .pendingReadFromClient
  ends : task.inProxy = true → s.unhandled client.proxyFd = 0

theorem ProxyTokens.takes (h : ProxyTokens s) {index : Nat} {task : Task}
    (htask : s.tasks[index]? = some task) :
    ∃ client, Taken task client { s with tasks := s.tasks.eraseIdx index } := by
  have hcount := tasksOf_erase htask task.user task.inProxy
  rw [if_pos ⟨rfl, rfl⟩] at hcount
  have hconnected : s.isConnected task.user = true := by
    by_contra hnot
    have hidle := h.idle task.user (Bool.eq_false_iff.mpr hnot)
    rw [outstanding_eq_add] at hidle
    cases hside : task.inProxy with
    | false =>
        rw [hside] at hcount
        omega
    | true =>
        rw [hside] at hcount
        omega
  obtain ⟨client, huser, hopen⟩ := isConnected_iff.mp hconnected
  have hbalanced := h.balanced task.user client huser hopen
  have hunhandled := unhandled_eq_add client.proxyFd s
  have hother := tasksOf_erase htask task.user (!task.inProxy)
  rw [if_neg fun hand => by simp at hand] at hother
  refine ⟨client, ?_⟩
  -- the task is on the side whose turn it is, and the other side has none
  cases hside : task.inProxy with
  | false =>
      rw [hside] at hcount hother
      cases hstate : client.proxyProcessState with
      | pendingReadFromClient =>
          simp only [View.Balanced, view, hstate] at hbalanced
          refine ⟨huser, hopen, ⟨?_, ?_⟩, by rw [hside, hstate]; rfl, fun hfalse => ?_⟩
          · show s.armed task.user + s.unhandled task.user + tasksOf _ _ _ = 0
            omega
          · show s.events client.proxyFd isWork + tasksOf _ _ _ = 0
            simp only [Bool.not_false] at hother
            omega
          · rw [hside] at hfalse
            cases hfalse
      | pendingReadFromProxyServer =>
          simp only [View.Balanced, view, hstate] at hbalanced
          omega
      | _ =>
          simp only [View.Balanced, view, hstate] at hbalanced
  | true =>
      rw [hside] at hcount hother
      cases hstate : client.proxyProcessState with
      | pendingReadFromClient =>
          simp only [View.Balanced, view, hstate] at hbalanced
          omega
      | pendingReadFromProxyServer =>
          simp only [View.Balanced, view, hstate] at hbalanced
          refine ⟨huser, hopen, ⟨?_, ?_⟩, by rw [hside, hstate]; rfl, fun _ => ?_⟩
          · show s.armed task.user + s.unhandled task.user + tasksOf _ _ _ = 0
            simp only [Bool.not_true] at hother
            omega
          · show s.events client.proxyFd isWork + tasksOf _ _ _ = 0
            omega
          · show s.unhandled client.proxyFd = 0
            omega
      | _ =>
          simp only [View.Balanced, view, hstate] at hbalanced

section tasks

variable {index : Nat} {task : Task}

/-- The task hands the token to the client's side. -/
theorem ProxyTokens.watchesClient (h : ProxyTokens s) (htask : s.tasks[index]? = some task)
    (htaken : Taken task client { s with tasks := s.tasks.eraseIdx index })
    (hsame : SameEnds client client')
    (hstate : client'.proxyProcessState = .pendingReadFromClient) {ev : EpollEvents}
    (hev : ev.epolloneshot = true) :
    ProxyTokens ((setUser task.user client' { s with tasks := s.tasks.eraseIdx index }).watch
      client'.fd ev) := by
  have hfd : client'.fd = task.user :=
    hsame.fd.trans (h.own task.user client htaken.user htaken.isOpen).1
  rw [hfd]
  have hout := (erase_outside (endsOf task.user client) htask).trans
    ((setUser_outside _ client').trans (watch_outside _ ev (Or.inl rfl)))
  refine h.turn htaken.user htaken.isOpen hout rfl rfl setUser_users_self hsame ?_ ?_
    (fun d _ => h.once d) h.reported
  · obtain ⟨hclient, hwork⟩ := htaken.spent
    simp only [View.Balanced, view, hstate, armed_watch_self, hsame.proxyFd]
    simp only [view] at hclient hwork
    constructor
    · show 1 + unhandled task.user { s with tasks := s.tasks.eraseIdx index } +
        tasksOf task.user false { s with tasks := s.tasks.eraseIdx index } = 1
      omega
    · exact hwork
  · intro r hr
    rw [watch_epoll_self] at hr
    obtain rfl := Option.some.inj hr
    exact hev

/-- The task hands the token to the backend's side. -/
theorem ProxyTokens.watchesProxy (h : ProxyTokens s) (htask : s.tasks[index]? = some task)
    (htaken : Taken task client { s with tasks := s.tasks.eraseIdx index })
    (hsame : SameEnds client client')
    (hstate : client'.proxyProcessState = .pendingReadFromProxyServer) {ev : EpollEvents} :
    ProxyTokens ((setUser task.user client' { s with tasks := s.tasks.eraseIdx index }).watch
      client'.proxyFd ev) := by
  obtain ⟨-, -, -, -, hmap⟩ := h.own task.user client htaken.user htaken.isOpen
  have hne : task.user ≠ client.proxyFd := by
    intro heq
    have hconnected : s.isConnected task.user = true := isConnected_of_user htaken.user htaken.isOpen
    rw [heq, (h.mapped _ _ hmap).1] at hconnected
    cases hconnected
  rw [hsame.proxyFd]
  have hout := (erase_outside (endsOf task.user client) htask).trans
    ((setUser_outside _ client').trans (watch_outside _ ev (Or.inr rfl)))
  refine h.turn htaken.user htaken.isOpen hout rfl rfl setUser_users_self hsame ?_ ?_
    (fun d _ => h.once d) h.reported
  · obtain ⟨hclient, hwork⟩ := htaken.spent
    rw [View.Balanced, view, hstate]
    dsimp only
    rw [armed_watch_other ev hne, hsame.proxyFd, armed_watch_self]
    exact ⟨hclient, Or.inr ⟨hwork, Or.inl rfl⟩⟩
  · intro r hr
    rw [watch_epoll_other ev hne] at hr
    exact h.oneshot task.user r (isConnected_of_user htaken.user htaken.isOpen) hr

/-- The task closes the connection. -/
theorem ProxyTokens.taskCloses (h : ProxyTokens s) (htask : s.tasks[index]? = some task)
    (htaken : Taken task client { s with tasks := s.tasks.eraseIdx index })
    (hsame : SameEnds client client') (hends : s.unhandled client.proxyFd = 0)
    (hproxy : cfg.isSetProxy = true)
    (hclose : (setUser task.user client' { s with tasks := s.tasks.eraseIdx index }).closeConn cfg
      task.user = some s') : ProxyTokens s' := by
  have hout := (erase_outside (endsOf task.user client) htask).trans (setUser_outside _ client')
  obtain ⟨hclient, hwork⟩ := htaken.spent
  simp only [view] at hclient hwork
  refine h.closes htaken.user htaken.isOpen hout rfl rfl setUser_users_self hsame ?_ ?_ h.reported
    hproxy hclose
  · rintro d (rfl | rfl)
    · show unhandled task.user { s with tasks := s.tasks.eraseIdx index } = 0
      omega
    · exact hends
  · show outstanding task.user { s with tasks := s.tasks.eraseIdx index } = 0
    rw [outstanding_eq_add]
    omega

end tasks

/-! ## The condition -/

/-- A task that ends the connection finds nothing of the backend waiting, and one that
writes to the backend does not fail. -/
def TaskInTurn (w : TaskWorld) (task : Task) (client : HttpConn J) (s : HttpServer J) : Prop :=
  match task.kind, task.inProxy with
  | .onRead, _ => w.readRet ≤ 0 ∧ w.readError ≠ .eagain → s.unhandled client.proxyFd = 0
  | .onWrite, true => WroteAll w client ∨ WouldBlock w client
  | .onWrite, false => WroteAll w client ∧ (client.writeToFd w.last w.counts).2.isKeepAlive ∨
      WouldBlock w client ∨ s.unhandled client.proxyFd = 0

def InTurn (s : HttpServer J) : ServerStep → Prop
  | .listen _ => True
  | .deliver fd events => ∀ user ∈ s.proxyFdMap fd, events.hangsUp = false →
      -- the server waits for this backend, and has registered it as `AddClient` does
      (∀ client ∈ s.users user, client.proxyProcessState = .pendingReadFromProxyServer) ∧
        ∀ r ∈ s.epoll fd, r.events.epolloneshot = true
  | .handle connects => ∀ e ∈ s.delivered.head?, e.2.hangsUp = true →
      if (s.proxyFdMap e.1).isSome then (connects.takeWhile Connect.failed).length ≤ 5
      else ∀ client ∈ s.users e.1, s.unhandled client.proxyFd = 0
  | .run index w => ∀ task ∈ s.tasks[index]?, ∀ client ∈ s.users task.user,
      TaskInTurn w task client s
  | .elapse _ => True
  | .expire _ => True

/-! ## The steps -/

theorem ProxyTokens.reads (h : ProxyTokens s) {index : Nat} {task : Task}
    (htask : s.tasks[index]? = some task)
    (htaken : Taken task client { s with tasks := s.tasks.eraseIdx index })
    (hproxy : cfg.isSetProxy = true) {w : TaskWorld}
    (hends : w.readRet ≤ 0 ∧ w.readError ≠ .eagain → s.unhandled client.proxyFd = 0)
    (hread : onRead cfg w task.user { s with tasks := s.tasks.eraseIdx index } = some s') :
    ProxyTokens s' := by
  unfold onRead at hread
  rw [userAt_of_user htaken.user] at hread
  simp only [bind, Option.bind, hproxy, if_true] at hread
  by_cases hend : w.readRet ≤ 0 ∧ w.readError ≠ .eagain
  · rw [if_pos hend] at hread
    have hreads : SameEnds client (client.readFromFd w.reads) := ⟨rfl, rfl, rfl⟩
    exact h.taskCloses htask htaken hreads (hends hend) hproxy hread
  · rw [if_neg hend] at hread
    unfold onProcessProxy at hread
    cases hprocess : (client.readFromFd w.reads).processProxy cfg.js w.fs cfg.webRoot w.entries with
    | error e => simp [hprocess] at hread
    | ok p =>
        obtain ⟨result, client'⟩ := p
        obtain ⟨⟨hfd, hproxyFd, hclosed⟩, hfromClient, hfromProxy⟩ := processProxy_turn hprocess
        have hsame : SameEnds client client' := ⟨hfd, hproxyFd, hclosed⟩
        have hturn := htaken.turn
        rw [hprocess] at hread
        cases hside : task.inProxy with
        | false =>
            rw [hside] at hturn
            rcases hfromClient hturn with ⟨rfl, hstate⟩ | ⟨rfl, hstate⟩
            · obtain rfl := Option.some.inj hread
              exact h.watchesProxy htask htaken hsame hstate
            · obtain rfl := Option.some.inj hread
              exact h.watchesClient htask htaken hsame hstate rfl
        | true =>
            rw [hside] at hturn
            obtain ⟨rfl, hstate⟩ := hfromProxy hturn
            obtain rfl := Option.some.inj hread
            exact h.watchesClient htask htaken hsame hstate rfl

theorem ProxyTokens.writes (h : ProxyTokens s) {index : Nat} {task : Task}
    (htask : s.tasks[index]? = some task)
    (htaken : Taken task client { s with tasks := s.tasks.eraseIdx index })
    (hproxy : cfg.isSetProxy = true) (htimeout : cfg.timeout = 0) {w : TaskWorld}
    (hkind : task.kind = .onWrite)
    (hturn : TaskInTurn w task client s)
    (hwrite : onWrite cfg w task.user task.inProxy { s with tasks := s.tasks.eraseIdx index } =
      some s') : ProxyTokens s' := by
  obtain ⟨hsame, hstate⟩ := writeLoop_same w.last w.counts 0 client
  obtain ⟨write, client', hpair⟩ : ∃ write client',
      client.writeToFd w.last w.counts = (write, client') := ⟨_, _, rfl⟩
  have hloop : client.writeToFd w.last w.counts = writeLoop w.last w.counts 0 client := rfl
  rw [← hloop, hpair] at hsame hstate
  rw [onWrite_of_user htaken.user hpair, onWritten] at hwrite
  unfold TaskInTurn WroteAll WouldBlock at hturn
  rw [hpair] at hturn
  have hside := htaken.turn
  cases hinProxy : task.inProxy with
  | true =>
      rw [hinProxy] at hside hwrite
      simp only [hkind, hinProxy] at hturn
      have hstate' : client'.proxyProcessState = .pendingReadFromProxyServer := hstate.trans hside
      by_cases hall : client'.pendingWriteBytes = 0
      · rw [if_pos ⟨hall, rfl⟩, extentTime_off htimeout] at hwrite
        obtain rfl := Option.some.inj hwrite
        exact h.watchesProxy htask htaken hsame hstate'
      · rw [if_neg fun hand => hall hand.1, if_neg fun hand => hall hand.1,
          if_pos (hturn.resolve_left hall)] at hwrite
        obtain rfl := Option.some.inj hwrite
        exact h.watchesProxy htask htaken hsame hstate'
  | false =>
      rw [hinProxy] at hside hwrite
      simp only [hkind, hinProxy] at hturn
      have hstate' : client'.proxyProcessState = .pendingReadFromClient := hstate.trans hside
      rw [if_neg fun hand => Bool.false_ne_true hand.2] at hwrite
      by_cases hkeep : client'.pendingWriteBytes = 0 ∧ client'.isKeepAlive = true
      · rw [if_pos hkeep, extentTime_off htimeout] at hwrite
        obtain rfl := Option.some.inj hwrite
        exact h.watchesClient htask htaken hsame hstate' rfl
      · rw [if_neg hkeep] at hwrite
        by_cases hbusy : client'.pendingWriteBytes ≠ 0 ∧ write.ret < 0 ∧ write.error = some .eagain
        · rw [if_pos hbusy] at hwrite
          obtain rfl := Option.some.inj hwrite
          exact h.watchesClient htask htaken hsame hstate' rfl
        · rw [if_neg hbusy, if_neg Bool.false_ne_true] at hwrite
          have hends : s.unhandled client.proxyFd = 0 :=
            (hturn.resolve_left hkeep).resolve_left hbusy
          exact h.taskCloses htask htaken hsame hends hproxy hwrite

theorem ProxyTokens.runTask (h : ProxyTokens s) (hproxy : cfg.isSetProxy = true)
    (htimeout : cfg.timeout = 0) {index : Nat} {w : TaskWorld} (hturn : InTurn s (.run index w))
    (hrun : s.runTask cfg index w = some s') : ProxyTokens s' := by
  unfold HttpServer.runTask at hrun
  cases htask : s.tasks[index]? with
  | none => simp [htask] at hrun
  | some task =>
      obtain ⟨client, htaken⟩ := h.takes htask
      have hturn : TaskInTurn w task client s := hturn task htask client htaken.user
      simp only [htask] at hrun
      cases hkind : task.kind with
      | onRead =>
          rw [hkind] at hrun
          simp only [TaskInTurn, hkind] at hturn
          exact h.reads htask htaken hproxy hturn hrun
      | onWrite =>
          rw [hkind] at hrun
          exact h.writes htask htaken hproxy htimeout hkind hturn hrun

/-- Who an event can be for. -/
theorem ProxyTokens.owner (h : ProxyTokens s) (hne : s.armed fd ≠ 0 ∨ s.unhandled fd ≠ 0) :
    (∃ client, s.users fd = some client ∧ client.isClose = false ∧ s.proxyFdMap fd = none) ∨
      ∃ user client, s.proxyFdMap fd = some user ∧ s.users user = some client ∧
        client.isClose = false ∧ client.proxyFd = fd ∧ user ≠ fd := by
  cases hmap : s.proxyFdMap fd with
  | some user =>
      obtain ⟨hnot, client, huser, hopen, hfd⟩ := h.mapped fd user hmap
      refine Or.inr ⟨user, client, rfl, huser, hopen, hfd, ?_⟩
      rintro rfl
      rw [isConnected_of_user huser hopen] at hnot
      cases hnot
  | none =>
      cases hconnected : s.isConnected fd with
      | true =>
          obtain ⟨client, huser, hopen⟩ := isConnected_iff.mp hconnected
          exact Or.inl ⟨client, huser, hopen, rfl⟩
      | false =>
          obtain ⟨harmed, hunhandled⟩ := h.strays fd hconnected hmap
          rcases hne with hne | hne
          · exact absurd harmed hne
          · exact absurd hunhandled hne

/-- The descriptor of a client has a token only in the client's turn. -/
theorem ProxyTokens.clientsTurn (h : ProxyTokens s) (huser : s.users fd = some client)
    (hopen : client.isClose = false)
    (hone : 1 ≤ s.armed fd + s.unhandled fd + s.tasksOf fd false) :
    client.proxyProcessState = .pendingReadFromClient ∧
      s.armed fd + s.unhandled fd + s.tasksOf fd false = 1 ∧
      s.events client.proxyFd isWork + s.tasksOf fd true = 0 := by
  have hbalanced := h.balanced fd client huser hopen
  cases hstate : client.proxyProcessState with
  | pendingReadFromClient =>
      simp only [View.Balanced, view, hstate] at hbalanced
      exact ⟨rfl, hbalanced⟩
  | pendingReadFromProxyServer =>
      simp only [View.Balanced, view, hstate] at hbalanced
      omega
  | _ => simp only [View.Balanced, view, hstate] at hbalanced

/-- What `deliver` does. -/
structure Reported (fd : Int) (ev : EpollEvents) (r : Registration) (s s' : HttpServer J) :
    Prop where
  registered : s.epoll fd = some r
  armed : s.armed fd = 1
  none : s.unhandled fd = 0
  something : (ev.epollin || ev.epollout || ev.hangsUp) = true
  outside : ∀ user, Outside (fun d => d = fd) user s s'
  users : s'.users = s.users
  proxyFdMap : s'.proxyFdMap = s.proxyFdMap
  openFds : s'.openFds = s.openFds
  tasks : s'.tasks = s.tasks
  disarmed : ∃ r', s'.epoll fd = some r' ∧ r'.events = r.events ∧
    s'.armed fd = if r.events.epolloneshot then 0 else 1
  delivered : s'.delivered = s.delivered ++ [(fd, ev)]
  events : ∀ kind, s'.events fd kind = if kind ev then 1 else 0

theorem deliver_reported {ev : EpollEvents} (hdeliver : s.deliver fd ev = some s') :
    ∃ r, Reported fd ev r s s' := by
  unfold HttpServer.deliver at hdeliver
  cases hr : s.epoll fd with
  | none => simp [hr] at hdeliver
  | some r =>
      simp only [hr, Option.ite_none_right_eq_some, Option.some.injEq] at hdeliver
      obtain ⟨⟨henabled, hreports, honce⟩, rfl⟩ := hdeliver
      have hnone : ∀ kind, s.events fd kind = 0 := by
        intro kind
        rw [HttpServer.events, List.countP_eq_zero]
        intro e he
        simp [honce e he]
      refine ⟨r, hr, by simp [HttpServer.armed, hr, henabled], ?_, hreports.1, ?_, rfl, rfl, rfl, rfl,
        ?_, rfl, ?_⟩
      · rw [unhandled_eq_add, hnone, hnone]
      · intro user
        refine ⟨fun _ _ => rfl, fun d hd => Function.update_of_ne hd .., fun d kind hd => ?_,
          fun _ _ _ => rfl⟩
        simp [HttpServer.events, List.countP_append, Ne.symm hd]
      · refine ⟨{ r with enabled := !r.events.epolloneshot }, Function.update_self .., rfl, ?_⟩
        cases honeshot : r.events.epolloneshot <;> simp [HttpServer.armed]
      · intro kind
        have hafter := hnone kind
        rw [HttpServer.events] at hafter ⊢
        simp [List.countP_append, List.countP_singleton, hafter]

theorem ProxyTokens.delivers (h : ProxyTokens s) {ev : EpollEvents}
    (hturn : InTurn s (.deliver fd ev)) (hdeliver : s.deliver fd ev = some s') :
    ProxyTokens s' := by
  obtain ⟨r, hrep⟩ := deliver_reported hdeliver
  obtain ⟨r', hr', hevents, harmed⟩ := hrep.disarmed
  have hunhandled : s'.unhandled fd = 1 := by
    rw [unhandled_eq_add, hrep.events, hrep.events, isWork]
    cases ev.hangsUp <;> rfl
  have hreported : ∀ e ∈ s'.delivered, (e.2.epollin || e.2.epollout || e.2.hangsUp) = true := by
    rw [hrep.delivered]
    intro e hmem
    rcases List.mem_append.mp hmem with hmem | hmem
    · exact h.reported e hmem
    · rw [List.mem_singleton.mp hmem]
      exact hrep.something
  have honce : ∀ d, s'.unhandled d ≤ 1 := by
    intro d
    by_cases hd : d = fd
    · rw [hd, hunhandled]
    · rw [(hrep.outside d).unhandled_eq hd]
      exact h.once d
  have hone : s.armed fd ≠ 0 ∨ s.unhandled fd ≠ 0 := Or.inl (by rw [hrep.armed]; exact Nat.one_ne_zero)
  rcases h.owner hone with ⟨client, huser, hopen, -⟩ | ⟨user, client, hmap, huser, hopen, rfl, hne⟩
  · -- the client's event takes the place of its watch
    have honeshot := h.oneshot fd r (isConnected_of_user huser hopen) hrep.registered
    rw [honeshot, if_pos rfl] at harmed
    obtain ⟨-, -, -, -, hown⟩ := h.own fd client huser hopen
    have hother : client.proxyFd ≠ fd := by
      intro heq
      have hconnected := isConnected_of_user huser hopen
      rw [← heq, (h.mapped _ _ hown).1] at hconnected
      cases hconnected
    refine h.turn huser hopen ?_ hrep.proxyFdMap hrep.openFds ?_ ⟨rfl, rfl, rfl⟩ ?_ ?_
      (fun d _ => honce d) hreported
    · exact ⟨(hrep.outside fd).users, fun d hd => (hrep.outside fd).epoll d fun heq => hd (Or.inl heq),
        fun d kind hd => (hrep.outside fd).events d kind fun heq => hd (Or.inl heq),
        (hrep.outside fd).tasks⟩
    · rw [hrep.users]
      exact huser
    · have hview : s'.view fd client = s.view fd client := by
        rw [view, view, harmed, hunhandled, hrep.armed, hrep.none,
          armed_of_epoll_eq ((hrep.outside fd).epoll _ hother),
          (hrep.outside fd).events _ _ hother, (hrep.outside fd).events _ _ hother]
        simp only [tasksOf, hrep.tasks]
      rw [hview]
      exact h.balanced fd client huser hopen
    · intro r'' hr''
      rw [hr'] at hr''
      obtain rfl := Option.some.inj hr''
      rw [hevents]
      exact honeshot
  · have hbalanced := h.balanced user client huser hopen
    refine h.turn huser hopen ?_ hrep.proxyFdMap hrep.openFds ?_ ⟨rfl, rfl, rfl⟩ ?_ ?_
      (fun d _ => honce d) hreported
    · exact ⟨(hrep.outside user).users,
        fun d hd => (hrep.outside user).epoll d fun heq => hd (Or.inr heq),
        fun d kind hd => (hrep.outside user).events d kind fun heq => hd (Or.inr heq),
        (hrep.outside user).tasks⟩
    · rw [hrep.users]
      exact huser
    · have hclient : s'.armed user + s'.unhandled user + s'.tasksOf user false =
          s.armed user + s.unhandled user + s.tasksOf user false := by
        rw [armed_of_epoll_eq ((hrep.outside user).epoll user hne),
          (hrep.outside user).unhandled_eq hne]
        simp only [tasksOf, hrep.tasks]
      have htasks : s'.tasksOf user true = s.tasksOf user true := by
        simp only [tasksOf, hrep.tasks]
      have hwas := hrep.armed
      have hnone := hrep.none
      rw [unhandled_eq_add] at hnone
      have hwork := hrep.events isWork
      have hends := hrep.events EpollEvents.hangsUp
      -- an end may come at any time, anything else in the backend's turn only
      cases hhup : ev.hangsUp with
      | true =>
          simp only [isWork, hhup, Bool.not_true, Bool.false_eq_true, if_false, if_true] at hwork hends
          cases hstate : client.proxyProcessState with
          | pendingReadFromClient =>
              simp only [View.Balanced, view, hstate] at hbalanced ⊢
              omega
          | pendingReadFromProxyServer =>
              simp only [View.Balanced, view, hstate] at hbalanced ⊢
              omega
          | _ => simp only [View.Balanced, view, hstate] at hbalanced
      | false =>
          obtain ⟨hwaits, honeshot⟩ := hturn user hmap hhup
          have hstate := hwaits client huser
          rw [honeshot r hrep.registered, if_pos rfl] at harmed
          simp only [isWork, hhup, Bool.not_false, Bool.false_eq_true, if_false, if_true] at hwork hends
          simp only [View.Balanced, view, hstate] at hbalanced ⊢
          omega
    · intro r'' hr''
      rw [(hrep.outside user).epoll user hne] at hr''
      exact h.oneshot user r'' (isConnected_of_user huser hopen) hr''

/-- Nothing knows a descriptor that is not open. -/
structure Unknown (fd : Int) (s : HttpServer J) : Prop where
  isConnected : s.isConnected fd = false
  proxyFdMap : s.proxyFdMap fd = none
  armed : s.armed fd = 0
  unhandled : s.unhandled fd = 0

theorem ProxyTokens.unknown (h : ProxyTokens s) (hfree : s.openFds fd = false) : Unknown fd s := by
  have hnot : s.isConnected fd = false := by
    apply Bool.eq_false_iff.mpr
    intro hconnected
    obtain ⟨c, hc, hcopen⟩ := isConnected_iff.mp hconnected
    rw [(h.own fd c hc hcopen).2.2.1] at hfree
    cases hfree
  have hmap : s.proxyFdMap fd = none := by
    cases hm : s.proxyFdMap fd with
    | none => rfl
    | some user =>
        obtain ⟨-, c, hc, hcopen, rfl⟩ := h.mapped fd user hm
        rw [(h.own user c hc hcopen).2.2.2.1] at hfree
        cases hfree
  obtain ⟨harmed, hunhandled⟩ := h.strays fd hnot hmap
  exact ⟨hnot, hmap, harmed, hunhandled⟩

/-! ## Reconnecting -/

theorem Reconnected.isConnected_eq {p new : Int} {rest : List (Int × EpollEvents)}
    {s₁ : HttpServer J} (hrec : Reconnected p fd new client { s with delivered := rest } s₁ s')
    (huser : s.users fd = some client) (hopen : client.isClose = false) (d : Int) :
    s'.isConnected d = s.isConnected d := by
  by_cases hd : d = fd
  · subst hd
    have hself : s'.users d = some (client.resetProxyFd new) := by
      rw [hrec.users, Function.update_self]
    rw [isConnected_of_user huser hopen, isConnected_of_user hself hopen]
  · apply isConnected_of_users_eq
    rw [hrec.users, Function.update_of_ne hd]

theorem Reconnected.events_popped {p new : Int} {ev : EpollEvents}
    {rest : List (Int × EpollEvents)} {s₁ : HttpServer J}
    (hrec : Reconnected p fd new client { s with delivered := rest } s₁ s')
    (hdelivered : s.delivered = (p, ev) :: rest) (d : Int) (kind : EpollEvents → Bool) :
    s.events d kind = s'.events d kind + if p = d ∧ kind ev = true then 1 else 0 := by
  rw [events_pop hdelivered, events, events, hrec.delivered]

theorem Reconnected.outside {p new : Int} {ev : EpollEvents} {rest : List (Int × EpollEvents)}
    {s₁ : HttpServer J} (hrec : Reconnected p fd new client { s with delivered := rest } s₁ s')
    (hdelivered : s.delivered = (p, ev) :: rest) :
    Outside (fun d => d = p ∨ d = new) fd s s' := by
  constructor
  case users =>
    intro d hd
    rw [hrec.users, Function.update_of_ne hd]
  case epoll =>
    intro d hd
    rw [hrec.epoll, Function.update_of_ne fun heq => hd (Or.inr heq),
      Function.update_of_ne fun heq => hd (Or.inl heq)]
  case events =>
    intro d kind hd
    rw [hrec.events_popped hdelivered, if_neg fun hand => hd (Or.inl hand.1.symm), Nat.add_zero]
  case tasks =>
    intro d inProxy hd
    rw [tasksOf, tasksOf, hrec.tasks]

/-- The end of the backend is taken, and the new one is watched. -/
theorem Reconnected.balanced {new : Int} {ev : EpollEvents} {rest : List (Int × EpollEvents)}
    {s₁ : HttpServer J}
    (hrec : Reconnected client.proxyFd fd new client { s with delivered := rest } s₁ s')
    (hdelivered : s.delivered = (client.proxyFd, ev) :: rest) (hhup : ev.hangsUp = true)
    (hends : ¬ (fd = client.proxyFd ∨ fd = new)) (hnewevents : s.unhandled new = 0)
    (hbalanced : (s.view fd client).Balanced) :
    (s'.view fd (client.resetProxyFd new)).Balanced := by
  have hout := hrec.outside hdelivered
  have hpopped := hrec.events_popped hdelivered
  have hclient : s'.armed fd + s'.unhandled fd + s'.tasksOf fd false =
      s.armed fd + s.unhandled fd + s.tasksOf fd false := by
    rw [armed_of_epoll_eq (hout.epoll fd hends), hout.unhandled_eq hends, tasksOf, tasksOf,
      hrec.tasks]
  have htasks : s'.tasksOf fd true = s.tasksOf fd true := by
    rw [tasksOf, tasksOf, hrec.tasks]
  have harmed : s'.armed new = 1 := by
    simp [armed, hrec.epoll]
  have hwork : s'.events new isWork = 0 := by
    have hpop := hpopped new isWork
    rw [unhandled_eq_add] at hnewevents
    omega
  have hend : 1 ≤ s.events client.proxyFd EpollEvents.hangsUp := by
    rw [hpopped client.proxyFd, if_pos ⟨rfl, hhup⟩]
    omega
  have hview : s'.view fd (client.resetProxyFd new) =
      ⟨client.proxyProcessState, s.armed fd + s.unhandled fd + s.tasksOf fd false, 1,
        s.tasksOf fd true, s'.events new EpollEvents.hangsUp⟩ := by
    rw [view, hclient, htasks, show (client.resetProxyFd new).proxyFd = new from rfl, harmed,
      hwork, Nat.zero_add]
    rfl
  rw [hview]
  cases hstate : client.proxyProcessState with
  | pendingReadFromClient =>
      simp only [View.Balanced, view, hstate] at hbalanced ⊢
      omega
  | pendingReadFromProxyServer =>
      simp only [View.Balanced, view, hstate] at hbalanced ⊢
      rcases hbalanced with ⟨hzero, ⟨-, -, hnoEnd⟩ | ⟨hidle, -⟩⟩
      · omega
      · exact ⟨hzero, Or.inr ⟨(Nat.add_eq_zero_iff.mp hidle).2, Or.inl trivial⟩⟩
  | _ => simp only [View.Balanced, view, hstate] at hbalanced

theorem ProxyTokens.reconnects (h : ProxyTokens s) {p new : Int} {ev : EpollEvents}
    {rest : List (Int × EpollEvents)} (hdelivered : s.delivered = (p, ev) :: rest)
    (hhup : ev.hangsUp = true) (hmap : s.proxyFdMap p = some fd)
    (huser : s.users fd = some client)
    {s₁ : HttpServer J}
    (hrec : Reconnected p fd new client { s with delivered := rest } s₁ s') : ProxyTokens s' := by
  obtain ⟨hpnot, c, hc, hopen, hcp⟩ := h.mapped p fd hmap
  rw [huser] at hc
  obtain rfl := Option.some.inj hc
  obtain ⟨hnewne, hnewfree⟩ := hrec.fresh
  replace hnewfree : s.openFds new = false := hnewfree
  obtain ⟨hfd, -, hfdOpen, hpOpen, -⟩ := h.own fd client huser hopen
  rw [hcp] at hpOpen
  -- a descriptor that is open is not the new one
  have hnew : ∀ d, s.openFds d = true → d ≠ new := by
    rintro d hd rfl
    rw [hnewfree] at hd
    cases hd
  obtain ⟨hnewnot, -, -, hnewevents⟩ := h.unknown hnewfree
  have hapart : ∀ d, s.isConnected d = true → d ≠ p ∧ d ≠ new := by
    intro d hd
    constructor
    · rintro rfl
      rw [hpnot] at hd
      cases hd
    · rintro rfl
      rw [hnewnot] at hd
      cases hd
  have hfdconnected := isConnected_of_user huser hopen
  have hpnew : p ≠ new := hnew p hpOpen
  have hconnected := hrec.isConnected_eq huser hopen
  have hpopped := hrec.events_popped hdelivered
  have hless : ∀ d, s'.unhandled d ≤ s.unhandled d := by
    intro d
    rw [unhandled_eq_add, unhandled_eq_add, hpopped d, hpopped d]
    omega
  have hout := hrec.outside hdelivered
  have hopenFds : ∀ d, d ≠ p → s.openFds d = true → s'.openFds d = true := by
    intro d hd hdopen
    rw [openFds, hrec.owner, Function.update_of_ne (hnew d hdopen), Function.update_of_ne hd]
    exact hrec.opened.openFds hdopen
  have hpEpoll : s'.epoll p = none := by
    rw [hrec.epoll, Function.update_of_ne hpnew, Function.update_self]
  constructor
  case own =>
    intro d c hc hcopen
    by_cases hd : d = fd
    · subst hd
      rw [hrec.users, Function.update_self] at hc
      obtain rfl := Option.some.inj hc
      refine ⟨hfd, hnewne, hopenFds d (hapart d hfdconnected).1 hfdOpen, ?_, ?_⟩
      · rw [openFds, hrec.owner, show (client.resetProxyFd new).proxyFd = new from rfl,
          Function.update_self]
        rfl
      · rw [hrec.proxyFdMap]
        exact Function.update_self ..
    · rw [hout.users d hd] at hc
      obtain ⟨hcfd, hcne, hcOpen, hcpOpen, hcmap⟩ := h.own d c hc hcopen
      have hcp' : c.proxyFd ≠ p := by
        intro heq
        rw [heq, hmap] at hcmap
        exact hd (Option.some.inj hcmap).symm
      refine ⟨hcfd, hcne, hopenFds d (hapart d (isConnected_of_user hc hcopen)).1 hcOpen,
        hopenFds _ hcp' hcpOpen, ?_⟩
      rw [hrec.proxyFdMap, Function.update_of_ne (hnew _ hcpOpen), Function.update_of_ne hcp']
      exact hcmap
  case mapped =>
    intro q d hq
    rw [hrec.proxyFdMap] at hq
    by_cases hqnew : q = new
    · subst hqnew
      rw [Function.update_self] at hq
      obtain rfl := Option.some.inj hq
      refine ⟨(hconnected q).trans hnewnot, client.resetProxyFd q, ?_, hopen, rfl⟩
      rw [hrec.users, Function.update_self]
    · rw [Function.update_of_ne hqnew] at hq
      by_cases hqp : q = p
      · rw [hqp, Function.update_self] at hq
        cases hq
      · rw [Function.update_of_ne hqp] at hq
        obtain ⟨hqnot, c, hc, hcopen, hcq⟩ := h.mapped q d hq
        have hd : d ≠ fd := by
          rintro rfl
          rw [huser] at hc
          obtain rfl := Option.some.inj hc
          exact hqp (hcq.symm.trans hcp)
        exact ⟨(hconnected q).trans hqnot, c, (hout.users d hd).trans hc, hcopen, hcq⟩
  case balanced =>
    intro d c hc hcopen
    by_cases hd : d = fd
    · subst hd
      rw [hrec.users, Function.update_self] at hc
      obtain rfl := Option.some.inj hc
      have hbalanced := h.balanced d client huser hopen
      have hends : ¬ (d = p ∨ d = new) := fun hends =>
        hends.elim (hapart d hfdconnected).1 (hapart d hfdconnected).2
      subst hcp
      exact hrec.balanced hdelivered hhup hends hnewevents hbalanced
    · rw [hout.users d hd] at hc
      obtain ⟨hclient, hcproxy⟩ := h.apart huser hopen hd hc hcopen
      have hdnew := (hapart d (isConnected_of_user hc hcopen)).2
      have hcpnew := hnew _ (h.own d c hc hcopen).2.2.2.1
      rw [hout.view_eq hd]
      · exact h.balanced d c hc hcopen
      · rintro (heq | heq)
        · exact hclient (Or.inr (heq.trans hcp.symm))
        · exact hdnew heq
      · rintro (heq | heq)
        · exact hcproxy (Or.inr (heq.trans hcp.symm))
        · exact hcpnew heq
  case oneshot =>
    intro d r hd hr
    rw [hconnected] at hd
    rw [hout.epoll d fun hends => hends.elim (hapart d hd).1 (hapart d hd).2] at hr
    exact h.oneshot d r hd hr
  case strays =>
    intro d hd hdmap
    rw [hconnected] at hd
    have hdnew : d ≠ new := by
      rintro rfl
      rw [hrec.proxyFdMap, Function.update_self] at hdmap
      cases hdmap
    by_cases hdp : d = p
    · subst hdp
      refine ⟨armed_of_none hpEpoll, ?_⟩
      have hlast := h.once d
      rw [unhandled_eq_add, hpopped d EpollEvents.hangsUp, if_pos ⟨rfl, hhup⟩,
        hpopped d isWork] at hlast
      rw [unhandled_eq_add]
      omega
    · have hends : ¬ (d = p ∨ d = new) := fun hends => hends.elim hdp hdnew
      rw [hrec.proxyFdMap, Function.update_of_ne hdnew, Function.update_of_ne hdp] at hdmap
      rw [armed_of_epoll_eq (hout.epoll d hends), hout.unhandled_eq hends]
      exact h.strays d hd hdmap
  case idle =>
    intro d hd
    rw [outstanding, hrec.tasks]
    exact h.idle d ((hconnected d).symm.trans hd)
  case once =>
    intro d
    exact (hless d).trans (h.once d)
  case reported =>
    rw [hrec.delivered]
    intro e hmem
    apply h.reported
    rw [hdelivered]
    exact List.mem_cons_of_mem _ hmem

/-! ## The event loop -/

section handling

variable {ev : EpollEvents} {rest : List (Int × EpollEvents)}

/-- An event with something to do becomes a task. -/
theorem ProxyTokens.queues (h : ProxyTokens s) (hdelivered : s.delivered = (fd, ev) :: rest)
    (hwork : ev.hangsUp = false) (hproxy : cfg.isSetProxy = true) (htimeout : cfg.timeout = 0)
    {kind : TaskKind}
    (hdeal : dealTask cfg kind fd { s with delivered := rest } = some s') : ProxyTokens s' := by
  have hreported : ∀ e ∈ rest, (e.2.epollin || e.2.epollout || e.2.hangsUp) = true := by
    intro e hmem
    apply h.reported
    rw [hdelivered]
    exact List.mem_cons_of_mem _ hmem
  have hpopped := fun d kind => events_pop hdelivered d kind
  have hless : ∀ d, unhandled d { s with delivered := rest } ≤ s.unhandled d := by
    intro d
    rw [unhandled_eq_add, unhandled_eq_add, hpopped d, hpopped d]
    omega
  have hisWork : fd = fd ∧ isWork ev = true := ⟨rfl, by rw [isWork, hwork, Bool.not_false]⟩
  have hnotEnd : ∀ d, ¬ (fd = d ∧ ev.hangsUp = true) := by
    rintro d ⟨-, hhup⟩
    rw [hwork] at hhup
    cases hhup
  have hone : s.armed fd ≠ 0 ∨ s.unhandled fd ≠ 0 := by
    have hpop := hpopped fd isWork
    rw [if_pos hisWork] at hpop
    rw [unhandled_eq_add]
    omega
  unfold HttpServer.dealTask at hdeal
  rw [hproxy, if_pos rfl] at hdeal
  rcases h.owner hone with ⟨client, huser, hopen, hmap⟩ | ⟨user, client, hmap, huser, hopen, rfl, hne⟩
  · have huserAt : userAt cfg fd { s with delivered := rest } =
        some (client, { s with delivered := rest }) := userAt_of_user huser
    simp only [hmap, huserAt, bind, Option.bind, extentTime_off htimeout, Option.some.injEq] at hdeal
    subst hdeal
    have hout := (pop_outside (endsOf fd client) fd hdelivered (Or.inl rfl)).trans
      (queue_outside _ ⟨kind, fd, false⟩)
    have hother : fd ≠ client.proxyFd := by
      intro heq
      have hown := (h.own fd client huser hopen).2.2.2.2
      rw [← heq, hmap] at hown
      cases hown
    have hview : view fd client { s with delivered := rest, tasks := s.tasks ++ [⟨kind, fd, false⟩] } =
        s.view fd client := by
      have hqueued := fun side => tasksOf_queue (s := s) ⟨kind, fd, false⟩ fd side
      ext
      case state => rfl
      case client =>
        show s.armed fd + unhandled fd { s with delivered := rest } + tasksOf fd false
          { s with tasks := s.tasks ++ [⟨kind, fd, false⟩] } = _ + s.unhandled fd + _
        rw [hqueued, if_pos ⟨rfl, rfl⟩, unhandled_eq_add, unhandled_eq_add, hpopped fd isWork,
          hpopped fd EpollEvents.hangsUp, if_pos hisWork, if_neg (hnotEnd fd)]
        omega
      case proxyArmed => rfl
      case proxyWork =>
        show events client.proxyFd isWork { s with delivered := rest } + tasksOf fd true
          { s with tasks := s.tasks ++ [⟨kind, fd, false⟩] } = s.events client.proxyFd isWork + _
        rw [hqueued, if_neg fun hand => Bool.false_ne_true hand.2, hpopped client.proxyFd,
          if_neg fun hand => hother hand.1]
        rfl
      case proxyEnds =>
        show events client.proxyFd _ { s with delivered := rest } = s.events client.proxyFd _
        rw [hpopped client.proxyFd, if_neg fun hand => hother hand.1, Nat.add_zero]
    refine h.turn huser hopen hout rfl rfl huser ⟨rfl, rfl, rfl⟩ (hview ▸ h.balanced fd client huser hopen)
      (fun r hr => h.oneshot fd r (isConnected_of_user huser hopen) hr)
      (fun d _ => (hless d).trans (h.once d)) hreported
  · have huserAt : userAt cfg user { s with delivered := rest } =
        some (client, { s with delivered := rest }) := userAt_of_user huser
    simp only [hmap, huserAt, bind, Option.bind, extentTime_off htimeout, Option.some.injEq] at hdeal
    subst hdeal
    have hout := (pop_outside (endsOf user client) user hdelivered (Or.inr rfl)).trans
      (queue_outside _ ⟨kind, user, true⟩)
    have hview : view user client { s with delivered := rest, tasks := s.tasks ++ [⟨kind, user, true⟩] } =
        s.view user client := by
      have hqueued := fun side => tasksOf_queue (s := s) ⟨kind, user, true⟩ user side
      ext
      case state => rfl
      case client =>
        show s.armed user + unhandled user { s with delivered := rest } + tasksOf user false
          { s with tasks := s.tasks ++ [⟨kind, user, true⟩] } = _ + s.unhandled user + _
        rw [hqueued, if_neg fun hand => Bool.false_ne_true hand.2.symm, unhandled_eq_add,
          unhandled_eq_add, hpopped user isWork, hpopped user EpollEvents.hangsUp,
          if_neg fun hand => hne hand.1.symm, if_neg fun hand => hne hand.1.symm]
        rfl
      case proxyArmed => rfl
      case proxyWork =>
        show events client.proxyFd isWork { s with delivered := rest } + tasksOf user true
          { s with tasks := s.tasks ++ [⟨kind, user, true⟩] } = s.events client.proxyFd isWork + _
        rw [hqueued, if_pos ⟨rfl, rfl⟩, hpopped client.proxyFd isWork, if_pos hisWork]
        omega
      case proxyEnds =>
        show events client.proxyFd _ { s with delivered := rest } = s.events client.proxyFd _
        rw [hpopped client.proxyFd, if_neg (hnotEnd _), Nat.add_zero]
    refine h.turn huser hopen hout rfl rfl huser ⟨rfl, rfl, rfl⟩
      (hview ▸ h.balanced user client huser hopen)
      (fun r hr => h.oneshot user r (isConnected_of_user huser hopen) hr)
      (fun d _ => (hless d).trans (h.once d)) hreported

theorem ProxyTokens.handle (h : ProxyTokens s) (hproxy : cfg.isSetProxy = true)
    (htimeout : cfg.timeout = 0) {connects : List Connect}
    (hturn : InTurn s (.handle connects)) (hhandle : s.handle cfg connects = some s') :
    ProxyTokens s' := by
  unfold HttpServer.handle at hhandle
  cases hdelivered : s.delivered with
  | nil => simp [hdelivered] at hhandle
  | cons e rest =>
      obtain ⟨fd, ev⟩ := e
      simp only [hdelivered] at hhandle
      have hpopped := fun d kind => events_pop hdelivered d kind
      have hmem : ∀ e ∈ (fd, ev) :: rest, e ∈ s.delivered := by
        intro e he
        rw [hdelivered]
        exact he
      cases hhup : ev.hangsUp with
      | false =>
          have hreported := h.reported (fd, ev) (hmem _ List.mem_cons_self)
          rw [if_neg (by rw [hhup]; exact Bool.false_ne_true)] at hhandle
          by_cases hin : ev.epollin = true
          · rw [if_pos hin] at hhandle
            exact h.queues hdelivered hhup hproxy htimeout hhandle
          · rw [if_neg hin] at hhandle
            by_cases hout : ev.epollout = true
            · rw [if_pos hout] at hhandle
              exact h.queues hdelivered hhup hproxy htimeout hhandle
            · simp [hin, hout, hhup] at hreported
      | true =>
          have hturn := hturn (fd, ev) (by rw [hdelivered]; rfl) hhup
          rw [if_pos hhup] at hhandle
          have hpop := hpopped fd EpollEvents.hangsUp
          rw [if_pos ⟨rfl, hhup⟩] at hpop
          have hwaiting : s.unhandled fd ≠ 0 := by
            rw [unhandled_eq_add]
            omega
          rcases h.owner (Or.inr hwaiting) with
            ⟨client, huser, hopen, hmap⟩ | ⟨user, client, hmap, huser, hopen, rfl, hne⟩
          · rw [hmap] at hturn
            have hends : s.unhandled client.proxyFd = 0 := hturn client huser
            obtain ⟨-, hone, hidle⟩ := h.clientsTurn huser hopen (by omega)
            have hdisconnect : closeConn cfg fd { s with delivered := rest } = some s' := by
              rw [dealDisconnect, hmap, if_neg fun hand => Bool.false_ne_true hand.2] at hhandle
              exact hhandle
            refine h.closes huser hopen (pop_outside _ fd hdelivered (Or.inl rfl)) rfl rfl huser
              ⟨rfl, rfl, rfl⟩ ?_ ?_ (fun e he => h.reported e (hmem e (List.mem_cons_of_mem _ he)))
              hproxy hdisconnect
            · rintro d (rfl | rfl)
              · have hlast := h.once d
                have hwork := hpopped d isWork
                rw [unhandled_eq_add] at hlast ⊢
                omega
              · have hwork := hpopped client.proxyFd isWork
                have hend := hpopped client.proxyFd EpollEvents.hangsUp
                rw [unhandled_eq_add] at hends ⊢
                omega
            · show s.outstanding fd = 0
              rw [outstanding_eq_add]
              omega
          · rw [if_pos (by rw [hmap]; rfl)] at hturn
            obtain ⟨new, s₁, -, hrec⟩ := dealDisconnect_reconnected (s := { s with delivered := rest })
              hproxy hmap huser (fun _ hfree => (h.unknown hfree).proxyFdMap)
              (h.own user client huser hopen).2.2.2.1 hturn hhandle
            exact h.reconnects hdelivered hhup hmap huser hrec

end handling

/-! ## Accepting -/

theorem ProxyTokens.opened (h : ProxyTokens s) (hopened : Opened s s') : ProxyTokens s' := by
  rw [hopened.same]
  refine ⟨?_, h.mapped, h.balanced, h.oneshot, h.strays, h.idle, h.once, h.reported⟩
  intro d c hc hcopen
  obtain ⟨hcfd, hcne, hcOpen, hcpOpen, hcmap⟩ := h.own d c hc hcopen
  exact ⟨hcfd, hcne, hopened.openFds hcOpen, hopened.openFds hcpOpen, hcmap⟩

/-- The client that is turned away as the server is full. -/
theorem ProxyTokens.refuses (h : ProxyTokens s) (hfree : s.openFds fd = false) :
    ProxyTokens ((s.openFd fd).closeFd .server fd) := by
  have hunknown := h.unknown hfree
  have hkept : ∀ d, d ≠ fd → ((s.openFd fd).closeFd .server fd).epoll d = s.epoll d := fun d hd =>
    Function.update_of_ne hd ..
  have hfds : ∀ d, s.openFds d = true → ((s.openFd fd).closeFd .server fd).openFds d = true ∧ d ≠ fd := by
    intro d hd
    have hne : d ≠ fd := by
      rintro rfl
      rw [hfree] at hd
      cases hd
    refine ⟨?_, hne⟩
    rw [openFds_closeFd, if_neg hne, openFds_openFd, if_neg hne]
    exact hd
  have hout : Outside (fun d => d = fd) fd s ((s.openFd fd).closeFd .server fd) :=
    ⟨fun _ _ => rfl, hkept, fun _ _ _ => rfl, fun _ _ _ => rfl⟩
  refine ⟨?_, h.mapped, ?_, ?_, ?_, h.idle, h.once, h.reported⟩
  · intro d c hc hcopen
    obtain ⟨hcfd, hcne, hcOpen, hcpOpen, hcmap⟩ := h.own d c hc hcopen
    exact ⟨hcfd, hcne, (hfds d hcOpen).1, (hfds _ hcpOpen).1, hcmap⟩
  · intro d c hc hcopen
    obtain ⟨-, -, hcOpen, hcpOpen, -⟩ := h.own d c hc hcopen
    have hd := (hfds d hcOpen).2
    rw [hout.view_eq hd hd (hfds _ hcpOpen).2]
    exact h.balanced d c hc hcopen
  · intro d r hd hr
    obtain ⟨c, hc, hcopen⟩ := isConnected_iff.mp hd
    rw [hkept d (hfds d (h.own d c hc hcopen).2.2.1).2] at hr
    exact h.oneshot d r hd hr
  · intro d hd hdmap
    by_cases hdfd : d = fd
    · subst hdfd
      exact ⟨armed_of_none (Function.update_self ..), hunknown.unhandled⟩
    · rw [armed_of_epoll_eq (hkept d hdfd)]
      exact h.strays d hd hdmap

theorem Added.outside {p : Int} (hadded : Added cfg fd p ((s.openFd fd).openFd p) s')
    (hpne : p ≠ -1) : Outside (fun d => d = fd ∨ d = p) fd s s' := by
  obtain ⟨client, husers, -⟩ := hadded.users
  have hepoll := hadded.epoll
  rw [if_pos hpne] at hepoll
  constructor
  case users =>
    intro d hd
    rw [husers]
    exact Function.update_of_ne hd ..
  case epoll =>
    intro d hd
    rw [hepoll, watch_epoll_other _ fun heq => hd (Or.inr heq),
      watch_epoll_other _ fun heq => hd (Or.inl heq)]
    rfl
  case events =>
    intro d kind hd
    rw [events, events, hadded.delivered]
    rfl
  case tasks =>
    intro d inProxy hd
    rw [tasksOf, tasksOf, hadded.tasks]
    rfl

theorem ProxyTokens.adds (h : ProxyTokens s) {p : Int} (hfree : s.openFds fd = false)
    (hpfree : s.openFds p = false) (hfp : p ≠ fd) (hpne : p ≠ -1) {addr : SockAddr}
    (hadd : ((s.openFd fd).openFd p).addClient cfg fd addr p = some s') : ProxyTokens s' := by
  have hadded := addClient_added hadd
  obtain ⟨client, husers, hfd, hproxyFd, hopen, hstate⟩ := hadded.users
  have hunknown := h.unknown hfree
  have hpunknown := h.unknown hpfree
  have hepoll := hadded.epoll
  have hmap := hadded.proxyFdMap
  rw [if_pos hpne] at hepoll hmap
  replace hmap : s'.proxyFdMap = Function.update s.proxyFdMap p (some fd) := by
    rw [hmap, emplaceProxy,
      show ((s.openFd fd).openFd p).proxyFdMap p = none from hpunknown.proxyFdMap]
    rfl
  -- a descriptor that was open is neither of the two
  have hapart : ∀ d, s.openFds d = true → d ≠ fd ∧ d ≠ p := by
    intro d hd
    constructor
    · rintro rfl
      rw [hfree] at hd
      cases hd
    · rintro rfl
      rw [hpfree] at hd
      cases hd
  have hopenFds : ∀ d, s.openFds d = true → s'.openFds d = true := by
    intro d hd
    rw [hadded.openFds, openFds_openFd, openFds_openFd, hd, ite_self, ite_self]
  have hself : s'.users fd = some client := by
    rw [husers, Function.update_self]
  have hout := hadded.outside hpne
  have hdelivered : s'.delivered = s.delivered := hadded.delivered
  have htasks : s'.tasks = s.tasks := hadded.tasks
  have hother : ∀ d, d ≠ fd → s'.isConnected d = s.isConnected d := fun d hd =>
    isConnected_of_users_eq (hout.users d hd)
  have hfdEpoll : s'.epoll fd = some { events := connEventIn, enabled := true } := by
    rw [hepoll, watch_epoll_other _ hfp.symm, watch_epoll_self]
  constructor
  case own =>
    intro d c hc hcopen
    rw [hmap]
    by_cases hd : d = fd
    · subst hd
      rw [hself] at hc
      obtain rfl := Option.some.inj hc
      rw [hproxyFd, hadded.openFds, hadded.openFds, openFds_openFd, openFds_openFd,
        openFds_openFd, if_neg hfp.symm, if_pos rfl, if_pos rfl]
      exact ⟨hfd, hpne, rfl, rfl, Function.update_self ..⟩
    · rw [hout.users d hd] at hc
      obtain ⟨hcfd, hcne, hcOpen, hcpOpen, hcmap⟩ := h.own d c hc hcopen
      refine ⟨hcfd, hcne, hopenFds d hcOpen, hopenFds _ hcpOpen, ?_⟩
      rw [Function.update_of_ne (hapart _ hcpOpen).2]
      exact hcmap
  case mapped =>
    intro q d hq
    rw [hmap] at hq
    by_cases hqp : q = p
    · subst hqp
      rw [Function.update_self] at hq
      obtain rfl := Option.some.inj hq
      exact ⟨(hother q hfp).trans hpunknown.isConnected, client, hself, hopen, hproxyFd⟩
    · rw [Function.update_of_ne hqp] at hq
      obtain ⟨hqnot, c, hc, hcopen, rfl⟩ := h.mapped q d hq
      obtain ⟨-, -, hcOpen, hcpOpen, -⟩ := h.own d c hc hcopen
      exact ⟨(hother _ (hapart _ hcpOpen).1).trans hqnot, c,
        (hout.users d (hapart d hcOpen).1).trans hc, hcopen, rfl⟩
  case balanced =>
    intro d c hc hcopen
    by_cases hd : d = fd
    · subst hd
      rw [hself] at hc
      obtain rfl := Option.some.inj hc
      have hidle := h.idle d hunknown.isConnected
      have hevents := hpunknown.unhandled
      rw [outstanding_eq_add] at hidle
      rw [unhandled_eq_add] at hevents
      have harmed : s'.armed d = 1 := by simp [armed, hfdEpoll]
      rw [View.Balanced, view, hstate]
      dsimp only
      rw [harmed, hproxyFd, unhandled, events, tasksOf, tasksOf, hdelivered, htasks]
      have hnone := hunknown.unhandled
      simp only [unhandled, events, tasksOf] at hnone hidle hevents
      omega
    · rw [hout.users d hd] at hc
      obtain ⟨-, -, hcOpen, hcpOpen, -⟩ := h.own d c hc hcopen
      rw [hout.view_eq hd]
      · exact h.balanced d c hc hcopen
      · exact fun hends => hends.elim (hapart d hcOpen).1 (hapart d hcOpen).2
      · exact fun hends => hends.elim (hapart _ hcpOpen).1 (hapart _ hcpOpen).2
  case oneshot =>
    intro d r hd hr
    by_cases hdfd : d = fd
    · subst hdfd
      rw [hfdEpoll] at hr
      obtain rfl := Option.some.inj hr
      rfl
    · rw [hother d hdfd] at hd
      obtain ⟨c, hc, hcopen⟩ := isConnected_iff.mp hd
      have hopened := hapart d (h.own d c hc hcopen).2.2.1
      rw [hout.epoll d fun hends => hends.elim hopened.1 hopened.2] at hr
      exact h.oneshot d r hd hr
  case strays =>
    intro d hd hdmap
    have hdfd : d ≠ fd := by
      rintro rfl
      rw [isConnected_of_user hself hopen] at hd
      cases hd
    have hdp : d ≠ p := by
      rintro rfl
      rw [hmap, Function.update_self] at hdmap
      cases hdmap
    have hends : ¬ (d = fd ∨ d = p) := fun hends => hends.elim hdfd hdp
    rw [hother d hdfd] at hd
    rw [hmap, Function.update_of_ne hdp] at hdmap
    rw [armed_of_epoll_eq (hout.epoll d hends), hout.unhandled_eq hends]
    exact h.strays d hd hdmap
  case idle =>
    intro d hd
    have hdfd : d ≠ fd := by
      rintro rfl
      rw [isConnected_of_user hself hopen] at hd
      cases hd
    rw [hout.outstanding_eq hdfd]
    exact h.idle d ((hother d hdfd).symm.trans hd)
  case once =>
    intro d
    rw [unhandled, hdelivered]
    exact h.once d
  case reported =>
    rw [hdelivered]
    exact h.reported

theorem ProxyTokens.dealListen (hproxy : cfg.isSetProxy = true) :
    ∀ (accepts : List Accept) (s : HttpServer J), ProxyTokens s →
      s.dealListen cfg accepts = some s' → ProxyTokens s' := by
  intro accepts
  induction accepts with
  | nil =>
      intro s h hlisten
      obtain rfl := Option.some.inj hlisten
      exact h
  | cons a rest ih =>
      intro s h hlisten
      rw [HttpServer.dealListen] at hlisten
      by_cases hneg : a.fd < 0
      · rw [if_pos hneg] at hlisten
        obtain rfl := Option.some.inj hlisten
        exact h
      · rw [if_neg hneg] at hlisten
        cases hfree : s.openFds a.fd with
        | true => simp [hfree] at hlisten
        | false =>
            simp only [hfree, hproxy, Bool.false_eq_true, if_false, if_true] at hlisten
            split at hlisten
            case isTrue =>
              obtain rfl := Option.some.inj hlisten
              exact h.refuses hfree
            case isFalse =>
              obtain ⟨⟨proxyFd, s₁⟩, hget, hlisten⟩ := Option.bind_eq_some_iff.mp hlisten
              obtain ⟨hopened, -, hnew⟩ := getNewProxyFd_opened hget
              dsimp only at hlisten
              split at hlisten
              case isTrue => exact ih s₁ (h.opened ((openFd_opened hfree).trans hopened)) hlisten
              case isFalse hpne =>
                obtain ⟨s₂, hadd, hrest⟩ := Option.bind_eq_some_iff.mp hlisten
                obtain ⟨hpfree, -⟩ := hnew hpne
                obtain rfl := getNewProxyFd_connected hget hpne
                rw [openFds_openFd] at hpfree
                split at hpfree
                case isTrue => cases hpfree
                case isFalse hfp => exact ih s₂ (h.adds hfree hpfree hfp hpne hadd) hrest

/-! ## Runs -/

theorem ProxyTokens.serverStep (h : ProxyTokens s) (hproxy : cfg.isSetProxy = true)
    (htimeout : cfg.timeout = 0) {step : ServerStep} (hturn : InTurn s step)
    (hstep : WhiteWebServer.HttpServer.serverStep cfg s step = some s') : ProxyTokens s' := by
  cases step with
  | listen accepts => exact dealListen hproxy accepts s h hstep
  | deliver fd events => exact h.delivers hturn hstep
  | handle connects => exact h.handle hproxy htimeout hturn hstep
  | run index w => exact h.runTask hproxy htimeout hturn hstep
  | elapse ms =>
      obtain rfl := Option.some.inj hstep
      exact ⟨h.own, h.mapped, h.balanced, h.oneshot, h.strays, h.idle, h.once, h.reported⟩
  | expire fd =>
      rw [HttpServer.serverStep, expire_off htimeout] at hstep
      cases hstep

theorem ProxyTokens.new : ProxyTokens (HttpServer.new : HttpServer J) := by
  constructor
  case own =>
    intro fd client hc
    cases hc
  case mapped =>
    intro p fd hp
    cases hp
  case balanced =>
    intro fd client hc
    cases hc
  case oneshot =>
    intro fd r _ hr
    cases hr
  case strays =>
    intro fd _ _
    exact ⟨rfl, rfl⟩
  case idle =>
    intro fd _
    rfl
  case once =>
    intro fd
    exact Nat.zero_le 1
  case reported =>
    intro e hmem
    cases hmem

/-- No connection has two tasks, and none has nothing to wait for. -/
def KeepsConnections (s : HttpServer J) : Prop :=
  ∀ fd client, s.users fd = some client → client.isConnected = true →
    s.outstanding fd ≤ 1 ∧
      (s.outstanding fd = 0 → s.unhandled client.fd = 0 → s.unhandled client.proxyFd = 0 →
        s.armed client.fd = 1 ∨ s.armed client.proxyFd = 1)

theorem ProxyTokens.keeps (h : ProxyTokens s) : KeepsConnections s := by
  intro fd client huser hconnected
  have hopen : client.isClose = false := by simpa [HttpConn.isConnected] using hconnected
  have hbalanced := h.balanced fd client huser hopen
  rw [(h.own fd client huser hopen).1, outstanding_eq_add, unhandled_eq_add client.proxyFd]
  cases hstate : client.proxyProcessState with
  | pendingReadFromClient =>
      simp only [View.Balanced, view, hstate] at hbalanced
      constructor
      · omega
      · intro hidle hnone _
        exact Or.inl (by omega)
  | pendingReadFromProxyServer =>
      simp only [View.Balanced, view, hstate] at hbalanced
      constructor
      · omega
      · intro hidle _ hnone
        exact Or.inr (by omega)
  | _ => simp only [View.Balanced, view, hstate] at hbalanced

/-- A write to the backend that fails leaves the connection to nobody. -/
theorem failed_write_strands (h : ProxyTokens s) {index : Nat} {task : Task} {w : TaskWorld}
    (htask : s.tasks[index]? = some task) (hkind : task.kind = .onWrite)
    (hside : task.inProxy = true) (huser : s.users task.user = some client)
    (hfail : ¬ (WroteAll w client ∨ WouldBlock w client))
    (hrun : s.runTask cfg index w = some s') : ¬ KeepsConnections s' := by
  obtain ⟨c, htaken⟩ := h.takes htask
  have hc : s.users task.user = some c := htaken.user
  rw [huser] at hc
  obtain rfl := Option.some.inj hc
  obtain ⟨⟨hfd, hproxyFd, hclosed⟩, -⟩ := writeLoop_same w.last w.counts 0 client
  obtain ⟨write, client', hpair⟩ : ∃ write client',
      client.writeToFd w.last w.counts = (write, client') := ⟨_, _, rfl⟩
  have hloop : client.writeToFd w.last w.counts = writeLoop w.last w.counts 0 client := rfl
  rw [← hloop, hpair] at hfd hproxyFd hclosed
  unfold WroteAll WouldBlock at hfail
  rw [hpair, not_or] at hfail
  obtain ⟨hleft, hnotBusy⟩ := hfail
  -- nothing is armed on the way out
  unfold HttpServer.runTask at hrun
  simp only [htask, hkind, hside] at hrun
  rw [onWrite_of_user htaken.user hpair, onWritten, if_neg fun hand => hleft hand.1,
    if_neg fun hand => hleft hand.1, if_neg hnotBusy, if_pos rfl] at hrun
  obtain rfl := Option.some.inj hrun
  -- the token was the task
  have hbalanced := h.balanced task.user client huser htaken.isOpen
  have hturn := htaken.turn
  rw [hside, if_pos rfl] at hturn
  have hcount := tasksOf_erase htask task.user true
  rw [if_pos ⟨rfl, hside⟩] at hcount
  simp only [View.Balanced, view, hturn] at hbalanced
  obtain ⟨hspentClient, hspentWork⟩ := htaken.spent
  simp only [view] at hspentClient hspentWork
  intro hkeeps
  have hopen : client'.isConnected = true := by
    rw [HttpConn.isConnected, show client'.isClose = client.isClose from hclosed, htaken.isOpen]
    rfl
  obtain ⟨-, hwaits⟩ := hkeeps task.user client' setUser_users_self hopen
  rw [show client'.fd = client.fd from hfd, (h.own task.user client huser htaken.isOpen).1,
    show client'.proxyFd = client.proxyFd from hproxyFd] at hwaits
  have hidle : outstanding task.user { s with tasks := s.tasks.eraseIdx index } = 0 := by
    rw [outstanding_eq_add]
    omega
  have hunhandled : s.unhandled task.user = 0 := by
    show unhandled task.user { s with tasks := s.tasks.eraseIdx index } = 0
    omega
  have harmed : s.armed task.user = 0 := by
    show armed task.user { s with tasks := s.tasks.eraseIdx index } = 0
    omega
  rcases hwaits hidle hunhandled (htaken.ends hside) with hwatch | hwatch
  · have hzero : s.armed task.user = 1 := hwatch
    omega
  · have hzero : s.armed client.proxyFd = 1 := hwatch
    omega

/-- In proxy mode no connection is stranded or doubled, if each backend speaks in its
turn and the server does not fail it; behind such a run a write to the backend that fails
strands its connection. -/
theorem proxy_keeps_connections (hproxy : cfg.isSetProxy = true) (htimeout : cfg.timeout = 0)
    {steps : List ServerStep} {os : List Unit} (hturns : (server cfg).Meets InTurn new steps)
    (hrun : (server cfg).run steps = some (s, os)) :
    KeepsConnections s ∧ ∀ {index task client w s'}, s.tasks[index]? = some task →
      task.kind = .onWrite → task.inProxy = true → s.users task.user = some client →
        ¬ (WroteAll w client ∨ WouldBlock w client) → s.runTask cfg index w = some s' →
          ¬ KeepsConnections s' := by
  have htokens : ProxyTokens s := by
    apply Machine.run_invariant_of_meets ProxyTokens.new _ hturns hrun
    intro s₁ step s₂ o h hturn hstep
    exact h.serverStep hproxy htimeout hturn (server_step.mp hstep)
  refine ⟨htokens.keeps, fun htask hkind hside huser hfail hwrite => ?_⟩
  exact failed_write_strands htokens htask hkind hside huser hfail hwrite

instance (w : TaskWorld) (task : Task) (client : HttpConn J) (s : HttpServer J) :
    Decidable (TaskInTurn w task client s) := by
  unfold TaskInTurn WroteAll WouldBlock
  split <;> infer_instance

instance (s : HttpServer J) (step : ServerStep) : Decidable (InTurn s step) := by
  cases step <;> unfold InTurn <;> infer_instance

/-- The backend of a new client hangs up and is replaced; a request goes to the new one
in two pieces and its answer back. -/
def roundTrip : List ServerStep :=
  [.listen [⟨5, ⟨10, 0, 0, 7⟩, .connected 6⟩], .deliver 6 EPOLLRDHUP,
    .handle [.noSocket, .connected 7],
    .deliver 5 EPOLLIN, .handle [], .run 0 (busyAfter (ascii "GET / HTTP/1.1\r\n\r\n") 0),
    .deliver 7 EPOLLOUT, .handle [], .run 0 (busyAfter [] 10),
    .deliver 7 EPOLLOUT, .handle [], .run 0 (busyAfter [] 149),
    .deliver 7 EPOLLIN, .handle [],
    .run 0 (busyAfter (ascii "HTTP/1.1 204 No Content\r\n\r\n") 0),
    .deliver 5 EPOLLOUT, .handle [], .run 0 (busyAfter [] 27)]

theorem proxy_keeps_connections_round_trip :
    ∃ s os, (server (emptySite true)).run roundTrip = some (s, os) ∧ KeepsConnections s ∧
      s.isConnected 5 = true ∧ s.outstanding 5 = 0 ∧ s.armed 5 = 1 ∧ s.armed 7 = 0 := by
  have hstate : (((server (emptySite true)).run roundTrip).map fun r =>
      (r.1.isConnected 5, r.1.outstanding 5, r.1.armed 5, r.1.armed 7)) = some (true, 0, 1, 0) := by
    decide +kernel
  obtain ⟨⟨s, os⟩, hrun, hstate⟩ := Option.map_eq_some_iff.mp hstate
  simp only [Prod.mk.injEq] at hstate
  have hproxy : (emptySite true).isSetProxy = true := rfl
  have hkeeps := (proxy_keeps_connections hproxy rfl (by decide +kernel) hrun).1
  exact ⟨s, os, hrun, hkeeps, hstate⟩

/-- `DealDisconnect` registers the new backend without EPOLLONESHOT: what it sends is
reported again while the first task for it waits. -/
theorem reconnected_backend_doubles :
    ∃ s os, (server (emptySite true)).run [.listen [⟨5, ⟨10, 0, 0, 7⟩, .connected 6⟩],
        .deliver 6 EPOLLRDHUP, .handle [.connected 7], .deliver 7 EPOLLIN, .handle [],
        .deliver 7 EPOLLIN, .handle []] =
      some (s, os) ∧ s.outstanding 5 = 2 ∧ ¬ KeepsConnections s := by
  have hstate : (((server (emptySite true)).run [.listen [⟨5, ⟨10, 0, 0, 7⟩, .connected 6⟩],
      .deliver 6 EPOLLRDHUP, .handle [.connected 7], .deliver 7 EPOLLIN, .handle [],
      .deliver 7 EPOLLIN, .handle []]).map fun r => (r.1.isConnected 5, r.1.outstanding 5)) = some (true, 2) := by
    decide +kernel
  obtain ⟨⟨s, os⟩, hrun, hstate⟩ := Option.map_eq_some_iff.mp hstate
  obtain ⟨hconnected, htasks⟩ := Prod.mk.inj hstate
  refine ⟨s, os, hrun, htasks, fun hkeeps => ?_⟩
  obtain ⟨client, huser, hopen⟩ := isConnected_iff.mp hconnected
  have hone := (hkeeps 5 client huser (by simp [HttpConn.isConnected, hopen])).1
  rw [show s.outstanding 5 = 2 from htasks] at hone
  exact absurd hone (by decide)

end HttpServer

end WhiteWebServer
