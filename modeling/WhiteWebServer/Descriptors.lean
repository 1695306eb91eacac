import WhiteWebServer.Ownership

/-!
# Descriptors, backends and timers over a run

Whose the open descriptors are (§1), whom the map of the backends names (§2), and
which connections have a timer (§3), in every state of a run; each with what a step
must not do for it, and a run where one does.
-/

namespace WhiteWebServer.HttpServer

variable {J : Type} {cfg : ServerConfig J} {s s' : HttpServer J}

/-- The connection is open on the descriptor. -/
def HasFd (s : HttpServer J) (user d : Int) : Prop :=
  ∃ client, s.users user = some client ∧ client.isConnected = true ∧
    (d = client.fd ∨ (d = client.proxyFd ∧ client.proxyFd ≠ -1))

theorem hasFd_iff {user d : Int} : s.HasFd user d ↔ s.registry.Has user d := by
  constructor
  · rintro ⟨client, huser, hopen, hd⟩
    exact ⟨_, ends_eq_some.mpr ⟨client, huser, by simpa [HttpConn.isConnected] using hopen, rfl⟩, hd⟩
  · rintro ⟨e, he, hd⟩
    obtain ⟨client, huser, hopen, rfl⟩ := ends_eq_some.mp he
    exact ⟨client, huser, by simp [HttpConn.isConnected, hopen], hd⟩

theorem ends_of_isConnected {user : Int} {client : HttpConn J} (huser : s.users user = some client)
    (hopen : client.isConnected = true) :
    s.registry.ends user = some (client.fd, client.proxyFd) :=
  ends_eq_some.mpr ⟨client, huser, by simpa [HttpConn.isConnected] using hopen, rfl⟩

/-! ## §1  Descriptors -/

/-- The descriptors that are open are those of the connections, each of one of them, and
whatever was closed was its closer's. -/
structure DescriptorsOwned (s : HttpServer J) : Prop where
  open_iff : ∀ d, s.openFds d = true ↔ ∃ user, s.HasFd user d
  once : ∀ d user user', s.HasFd user d → s.HasFd user' d → user = user'
  apart : ∀ user client, s.users user = some client → client.isConnected = true →
    client.fd ≠ client.proxyFd
  closings : ∀ c ∈ s.closings, c.owner = some c.closer

/-- `GetNewProxyFd` connects for every client that is accepted; for a backend that is gone
it fails at most five times, and then for want of a socket. -/
def Connects (cfg : ServerConfig J) (s : HttpServer J) : ServerStep → Prop
  | .listen accepts => cfg.isSetProxy = true →
      ∀ a ∈ (accepts.takeWhile fun a => decide (0 ≤ a.fd)).take (kMaxFd - s.userCount),
        a.connect.failed = false
  | .handle connects => (s.backendGone cfg).isSome →
      (connects.takeWhile Connect.failed).length ≤ 5 ∧
        ∀ connect ∈ connects.takeWhile Connect.failed, connect = .noSocket
  | _ => True

theorem listenMoves_hands (isSetProxy : Bool) :
    ∀ (accepts : List Accept) (userCount : Nat),
      (isSetProxy = true →
        ∀ a ∈ (accepts.takeWhile fun a => decide (0 ≤ a.fd)).take (kMaxFd - userCount),
          a.connect.failed = false) →
        ∀ move ∈ listenMoves isSetProxy userCount accepts, Registry.Hands move := by
  intro accepts
  induction accepts with
  | nil =>
      intro userCount _ move hmove
      cases hmove
  | cons a rest ih =>
      intro userCount hconnects
      unfold listenMoves
      by_cases hfd : a.fd < 0
      · rw [if_pos hfd]
        intro move hmove
        cases hmove
      rw [if_neg hfd]
      by_cases hfull : userCount ≥ kMaxFd
      · rw [if_pos hfull]
        intro move hmove
        rw [List.mem_singleton.mp hmove]
        exact trivial
      rw [if_neg hfull]
      rw [List.takeWhile_cons_of_pos (by simpa using hfd),
        show kMaxFd - userCount = kMaxFd - (userCount + 1) + 1 by omega,
        List.take_succ_cons] at hconnects
      have hrest := ih (userCount + 1) fun hset a' ha' =>
        hconnects hset a' (List.mem_cons_of_mem a ha')
      have hjoins : ∀ p, ∀ move ∈ Move.joins a.fd p :: listenMoves isSetProxy (userCount + 1) rest,
          Registry.Hands move := by
        intro p move hmove
        rcases List.mem_cons.mp hmove with rfl | hmove
        · exact trivial
        · exact hrest move hmove
      by_cases hset : isSetProxy = true
      · rw [if_pos hset]
        have hhead := hconnects hset a List.mem_cons_self
        cases hconnect : a.connect with
        | noSocket =>
            rw [hconnect] at hhead
            cases hhead
        | refused d =>
            rw [hconnect] at hhead
            cases hhead
        | connected p => exact hjoins p
      · rw [if_neg hset]
        exact hjoins (-1)

theorem reconnectMoves_hands (p : Int) : ∀ (connects : List Connect),
    (∀ connect ∈ connects.takeWhile Connect.failed, connect = .noSocket) →
      ∀ move ∈ reconnectMoves p connects, Registry.Hands move
  | [], _, _, hmove => nomatch hmove
  | .noSocket :: rest, h, move, hmove =>
      reconnectMoves_hands p rest (fun connect hconnect => h connect
        (List.mem_cons_of_mem _ hconnect)) move hmove
  | .refused _ :: _, h, _, _ => nomatch h _ List.mem_cons_self
  | .connected _ :: _, _, _, hmove => by
      rw [List.mem_singleton.mp hmove]
      exact trivial

theorem closing_hands (cfg : ServerConfig J) (s : HttpServer J) (user : Option Int) :
    ∀ move ∈ (user.map fun user => s.closeMoves cfg user).getD [], Registry.Hands move := by
  intro move hmove
  cases user with
  | none => cases hmove
  | some user =>
      have hmove : move ∈ s.closeMoves cfg user := hmove
      unfold closeMoves at hmove
      split at hmove
      · rw [List.mem_singleton.mp hmove]
        exact trivial
      split at hmove
      · rw [List.mem_singleton.mp hmove]
        exact trivial
      · cases hmove

theorem moves_hands {step : ServerStep} (h : Connects cfg s step) :
    ∀ move ∈ s.moves cfg step, Registry.Hands move := by
  cases step with
  | listen accepts => exact listenMoves_hands cfg.isSetProxy accepts s.userCount h
  | handle connects =>
      unfold moves
      unfold Connects at h
      cases hgone : s.backendGone cfg with
      | some p =>
          rw [hgone] at h
          exact reconnectMoves_hands p connects (h rfl).2
      | none => exact closing_hands cfg s _
  | expire fd =>
      intro move hmove
      rcases List.mem_append.mp hmove with hmove | hmove
      · exact closing_hands cfg s _ move hmove
      · rw [List.mem_singleton.mp hmove]
        exact trivial
  | deliver fd events => exact closing_hands cfg s none
  | run index w => exact closing_hands cfg s _
  | elapse ms => exact closing_hands cfg s none

theorem Connects.patient {step : ServerStep} (h : Connects cfg s step) : Patient cfg s step := by
  cases step with
  | handle connects => exact fun hgone => (h hgone).1
  | _ => trivial

/-- No descriptor is leaked or closed for another, as long as every connect that is
waited for succeeds. -/
theorem descriptors_owned {steps : List ServerStep} {os : List Unit}
    (hconnects : (server cfg).Meets (Connects cfg) new steps)
    (hrun : (server cfg).run steps = some (s, os)) : DescriptorsOwned s := by
  obtain ⟨howned, hclean⟩ : Registry.Owned cfg.isSetProxy s.registry ∧ s.registry.Clean := by
    apply run_registry (I := Registry.Clean)
      ⟨(fun _ hserver => nomatch hserver), (fun _ hc => nomatch hc)⟩
      (fun _ _ h => h.patient) _ hconnects hrun
    intro s₁ step r' howned hclean hstep hfollows
    have hboth := Follows.keeps
      (I := fun r => Registry.Owned cfg.isSetProxy r ∧ r.Clean) (P := fun _ => Registry.Hands)
      (fun r move r' hr hhands hmove => ⟨hr.1.step hmove, hr.2.step hr.1 hhands hmove⟩)
      ⟨howned, hclean⟩ (Machine.meets_of_forall fun move hmove _ => moves_hands hstep move hmove)
      hfollows
    exact hboth.2
  constructor
  case open_iff =>
    intro d
    rw [openFds]
    constructor
    · intro hopen
      obtain ⟨owner, howner⟩ := Option.isSome_iff_exists.mp hopen
      cases owner with
      | server => exact absurd howner (hclean.given d)
      | conn user => exact ⟨user, hasFd_iff.mpr ((howned.owner d user).mp howner)⟩
    · rintro ⟨user, hd⟩
      rw [show s.owner d = some (.conn user) from (howned.owner d user).mpr (hasFd_iff.mp hd)]
      rfl
  case once =>
    intro d user user' hd hd'
    exact howned.unique (hasFd_iff.mp hd) (hasFd_iff.mp hd')
  case apart =>
    intro user client huser hopen heq
    obtain ⟨hself, hapart, -⟩ := howned.filed user _ (ends_of_isConnected huser hopen)
    exact hapart (heq.symm.trans hself)
  case closings => exact hclean.closings

instance (cfg : ServerConfig J) (s : HttpServer J) : ∀ step, Decidable (Connects cfg s step)
  | .listen _ | .handle _ => by unfold Connects; infer_instance
  | .deliver _ _ | .run _ _ | .elapse _ | .expire _ => isTrue trivial

/-- A backend hangs up and is replaced at the second attempt, then the client leaves. -/
def comesAndGoes : List ServerStep :=
  [.listen [⟨5, ⟨10, 0, 0, 7⟩, .connected 6⟩, ⟨-1, ⟨0, 0, 0, 0⟩, .noSocket⟩],
    .deliver 6 EPOLLRDHUP, .handle [.noSocket, .connected 7], .deliver 5 EPOLLRDHUP, .handle []]

theorem descriptors_owned_goes :
    ∃ s os, (server (emptySite true)).run comesAndGoes = some (s, os) ∧ DescriptorsOwned s ∧
      s.closings.map Closing.fd = [6, 5, 7] ∧ s.openFds 5 = false := by
  have hstate : (((server (emptySite true)).run comesAndGoes).map fun r =>
      (r.1.closings.map Closing.fd, r.1.openFds 5)) = some ([6, 5, 7], false) := by
    decide +kernel
  obtain ⟨⟨s, os⟩, hrun, hstate⟩ := Option.map_eq_some_iff.mp hstate
  simp only [Prod.mk.injEq] at hstate
  exact ⟨s, os, hrun, descriptors_owned (by decide +kernel) hrun, hstate⟩

/-- The backend refuses the connect for a new client: neither the client nor the socket is
closed, and nobody has them. -/
theorem refused_connect_leaks :
    ∃ s os, (server (emptySite true)).run [.listen [⟨5, ⟨10, 0, 0, 7⟩, .refused 6⟩]] =
      some (s, os) ∧ s.openFds 5 = true ∧ s.openFds 6 = true ∧ ¬ DescriptorsOwned s := by
  have hstate : (((server (emptySite true)).run [.listen [⟨5, ⟨10, 0, 0, 7⟩, .refused 6⟩]]).map
      fun r => (r.1.users, r.1.openFds 5, r.1.openFds 6)) = some (fun _ => none, true, true) := rfl
  obtain ⟨⟨s, os⟩, hrun, hstate⟩ := Option.map_eq_some_iff.mp hstate
  obtain ⟨husers, h5, h6⟩ := by simpa only [Prod.mk.injEq] using hstate
  refine ⟨s, os, hrun, h5, h6, fun howned => ?_⟩
  obtain ⟨user, client, huser, -⟩ := (howned.open_iff 5).mp h5
  rw [husers] at huser
  cases huser

/-- The move ends nothing. -/
def Begins : Move → Prop
  | .leaves _ | .forgets _ | .fires _ => False
  | _ => True

theorem Begins.forgets {move : Move} (h : Begins move) (r : Registry) : r.ForgetsNothing move := by
  cases move with
  | forgets p => exact h.elim
  | _ => trivial

theorem Begins.stays {move : Move} (h : Begins move) : Registry.Stays move := by
  cases move with
  | leaves user => exact h.elim
  | fires fd => exact h.elim
  | _ => trivial

theorem listenMoves_begins (isSetProxy : Bool) :
    ∀ (accepts : List Accept) (userCount : Nat),
      ∀ move ∈ listenMoves isSetProxy userCount accepts, Begins move := by
  intro accepts
  induction accepts with
  | nil =>
      intro userCount move hmove
      cases hmove
  | cons a rest ih =>
      intro userCount
      unfold listenMoves
      split
      · intro move hmove
        cases hmove
      split
      · simp [Begins]
      split
      · cases a.connect <;> simpa [Begins] using ih _
      · simpa [Begins] using ih _

theorem reconnectMoves_begins (p : Int) : ∀ (connects : List Connect),
    ∀ move ∈ reconnectMoves p connects, Begins move
  | [], _, hmove => nomatch hmove
  | .noSocket :: rest, move, hmove => reconnectMoves_begins p rest move hmove
  | .refused _ :: rest, move, hmove => by
      rcases List.mem_cons.mp hmove with rfl | hmove
      · exact trivial
      · exact reconnectMoves_begins p rest move hmove
  | .connected _ :: _, _, hmove => by
      rw [List.mem_singleton.mp hmove]
      exact trivial

/-! ## §2  Backends -/

/-- The map names for each backend the connection that has it, and what the backend sends
is for that connection. -/
structure BackendsMapped (cfg : ServerConfig J) (s : HttpServer J) : Prop where
  map : ∀ p user, s.proxyFdMap p = some user ↔
    ∃ client, s.users user = some client ∧ client.isConnected = true ∧ client.proxyFd = p
  dispatch : ∀ user client kind s', s.users user = some client → client.isConnected = true →
    s.dealTask cfg kind client.proxyFd = some s' →
      s'.tasks = s.tasks ++ [{ kind := kind, user := user, inProxy := true }]

/-- The backend that a connection remembers which is not connected any more is nobody's
when `CloseConn` is run for it again, and `DealDisconnect` does not give up. -/
def ClosesKnown (cfg : ServerConfig J) (s : HttpServer J) (step : ServerStep) : Prop :=
  Patient cfg s step ∧ ∀ user ∈ s.closesConn cfg step, s.isConnected user = false →
    s.proxyFdMap (s.proxyFdOf cfg user) = none

variable {M : Machine Registry Move Unit}

theorem closing_forgets {user : Option Int}
    (hknown : ∀ user' ∈ user, s.isConnected user' = false →
      s.proxyFdMap (s.proxyFdOf cfg user') = none) :
    M.Meets Registry.ForgetsNothing s.registry
      ((user.map fun user => s.closeMoves cfg user).getD []) := by
  cases user with
  | none => trivial
  | some user =>
      show M.Meets _ _ (s.closeMoves cfg user)
      unfold closeMoves
      split
      · exact ⟨trivial, fun _ _ _ => trivial⟩
      · rename_i hends
        split
        · refine ⟨hknown user rfl ?_, fun _ _ _ => trivial⟩
          rw [isConnected_eq_ends]
          exact Bool.eq_false_iff.mpr hends
        · trivial

theorem moves_forgets {step : ServerStep} (h : ClosesKnown cfg s step) :
    M.Meets Registry.ForgetsNothing s.registry (s.moves cfg step) := by
  cases step with
  | listen accepts =>
      exact Machine.meets_of_forall fun move hmove =>
        (listenMoves_begins cfg.isSetProxy accepts s.userCount move hmove).forgets
  | handle connects =>
      unfold moves
      cases s.backendGone cfg with
      | some p =>
          exact Machine.meets_of_forall fun move hmove =>
            (reconnectMoves_begins p connects move hmove).forgets
      | none => exact closing_forgets h.2
  | expire fd => exact (closing_forgets h.2).append fun _ => ⟨trivial, fun _ _ _ => trivial⟩
  | deliver fd events => exact @closing_forgets J cfg s _ none fun _ hnone => nomatch hnone
  | run index w => exact closing_forgets h.2
  | elapse ms => exact closing_forgets h.2

theorem dealTask_of_backend {kind : TaskKind} {user : Int} {client : HttpConn J}
    (hset : cfg.isSetProxy = true) (hmap : s.proxyFdMap client.proxyFd = some user)
    (huser : s.users user = some client)
    (hdeal : s.dealTask cfg kind client.proxyFd = some s') :
    s'.tasks = s.tasks ++ [{ kind := kind, user := user, inProxy := true }] := by
  unfold HttpServer.dealTask at hdeal
  rw [if_pos hset, hmap] at hdeal
  dsimp only at hdeal
  rw [userAt_of_user huser, Option.bind_eq_bind, Option.bind_some, extentTime_eq] at hdeal
  cases hdeal
  rfl

/-- In proxy mode the map is right as long as no connection is closed again that
remembers the backend of another. -/
theorem backends_mapped (hset : cfg.isSetProxy = true) {steps : List ServerStep} {os : List Unit}
    (hknown : (server cfg).Meets (ClosesKnown cfg) new steps)
    (hrun : (server cfg).run steps = some (s, os)) : BackendsMapped cfg s := by
  obtain ⟨howned, hmapped⟩ : Registry.Owned cfg.isSetProxy s.registry ∧ s.registry.Mapped := by
    apply run_registry (I := Registry.Mapped) (fun _ _ hends => nomatch hends)
      (fun _ _ h => h.1) _ hknown hrun
    intro s₁ step r' howned hmapped hstep hfollows
    have hboth := Follows.keeps
      (I := fun r => Registry.Owned cfg.isSetProxy r ∧ r.Mapped) (P := Registry.ForgetsNothing)
      (fun r move r' hr hforgets hmove => ⟨hr.1.step hmove, hr.2.step hr.1 hforgets hmove⟩)
      ⟨howned, hmapped⟩ (moves_forgets hstep) hfollows
    exact hboth.2
  have hmap : ∀ p user, s.proxyFdMap p = some user ↔
      ∃ client, s.users user = some client ∧ client.isConnected = true ∧ client.proxyFd = p := by
    intro p user
    constructor
    · intro hp
      obtain ⟨-, e, he, rfl⟩ := howned.mapped p user hp
      obtain ⟨client, huser, hopen, rfl⟩ := ends_eq_some.mp he
      exact ⟨client, huser, by simp [HttpConn.isConnected, hopen], rfl⟩
    · rintro ⟨client, huser, hopen, rfl⟩
      have he := ends_of_isConnected huser hopen
      exact hmapped user _ he ((howned.filed user _ he).2.2.mpr hset)
  refine ⟨hmap, fun user client kind s' huser hopen hdeal => ?_⟩
  exact dealTask_of_backend hset ((hmap _ user).mpr ⟨client, huser, hopen, rfl⟩) huser hdeal

instance (cfg : ServerConfig J) (s : HttpServer J) (step : ServerStep) :
    Decidable (ClosesKnown cfg s step) := by
  unfold ClosesKnown
  infer_instance

theorem backends_mapped_goes :
    ∃ s os, (server (emptySite true)).run comesAndGoes = some (s, os) ∧
      BackendsMapped (emptySite true) s ∧ s.proxyFdMap 7 = none := by
  have hstate : (((server (emptySite true)).run comesAndGoes).map fun r => r.1.proxyFdMap 7) =
      some none := by
    decide +kernel
  obtain ⟨⟨s, os⟩, hrun, hstate⟩ := Option.map_eq_some_iff.mp hstate
  have hset : (emptySite true).isSetProxy = true := rfl
  exact ⟨s, os, hrun, backends_mapped hset (by decide +kernel) hrun, hstate⟩

/-- `DealDisconnect` closes the connection at the sixth failure and goes on: the new
backend is that of `users_[0]`, which is no connection. -/
theorem gives_up_and_goes_on :
    ∃ s os, (server (emptySite true)).run [.listen [⟨5, ⟨10, 0, 0, 7⟩, .connected 6⟩],
        .deliver 6 EPOLLRDHUP, .handle (List.replicate 6 .noSocket ++ [.connected 7])] =
      some (s, os) ∧ s.proxyFdMap 7 = some 0 ∧ ¬ BackendsMapped (emptySite true) s := by
  have hstate : (((server (emptySite true)).run [.listen [⟨5, ⟨10, 0, 0, 7⟩, .connected 6⟩],
      .deliver 6 EPOLLRDHUP, .handle (List.replicate 6 .noSocket ++ [.connected 7])]).map
      fun r => (r.1.proxyFdMap 7, r.1.isConnected 0)) = some (some 0, false) := by
    decide +kernel
  obtain ⟨⟨s, os⟩, hrun, hstate⟩ := Option.map_eq_some_iff.mp hstate
  obtain ⟨hmap, hclosed⟩ := Prod.mk.inj hstate
  refine ⟨s, os, hrun, hmap, fun hmapped => ?_⟩
  obtain ⟨client, huser, hopen, -⟩ := (hmapped.map 7 0).mp hmap
  have hconnected := isConnected_of_user huser (by simpa [HttpConn.isConnected] using hopen)
  rw [hconnected] at hclosed
  cases hclosed

/-! ## §3  Timers -/

/-- The descriptors with a timer are those of the connections, a timer closes a connection
that is open, and takes nothing of another out of epoll or the map. -/
structure TimersLive (cfg : ServerConfig J) (s : HttpServer J) : Prop where
  armed : ∀ d, (s.timer d).isSome = true ↔
    ∃ user client, s.users user = some client ∧ client.isConnected = true ∧ client.fd = d
  live : ∀ d deadline user, s.timer d = some (deadline, user) → s.isConnected user = true
  others : ∀ d deadline user s', s.timer d = some (deadline, user) → s.expire cfg d = some s' →
    ∀ user' client, user' ≠ user → s.users user' = some client → client.isConnected = true →
      s'.epoll client.fd = s.epoll client.fd ∧ s'.epoll client.proxyFd = s.epoll client.proxyFd ∧
        s'.proxyFdMap client.proxyFd = s.proxyFdMap client.proxyFd

/-- A connection is closed by its timer only, and `DealDisconnect` does not give up. -/
def OnlyExpires (cfg : ServerConfig J) (s : HttpServer J) (step : ServerStep) : Prop :=
  Patient cfg s step ∧
    match step with
    | .expire _ => True
    | step => ∀ user ∈ s.closesConn cfg step, s.isConnected user = false

theorem closing_stays {user : Option Int} (hstale : ∀ user' ∈ user, s.isConnected user' = false) :
    ∀ move ∈ (user.map fun user => s.closeMoves cfg user).getD [], Registry.Stays move := by
  intro move hmove
  cases user with
  | none => cases hmove
  | some user =>
      have hmove : move ∈ s.closeMoves cfg user := hmove
      have hends := hstale user rfl
      rw [isConnected_eq_ends] at hends
      unfold closeMoves at hmove
      rw [hends, if_neg (by decide)] at hmove
      split at hmove
      · rw [List.mem_singleton.mp hmove]
        exact trivial
      · cases hmove

theorem moves_stays {step : ServerStep} (h : OnlyExpires cfg s step)
    (hexpire : ∀ fd, step ≠ .expire fd) : ∀ move ∈ s.moves cfg step, Registry.Stays move := by
  cases step with
  | listen accepts =>
      exact fun move hmove =>
        (listenMoves_begins cfg.isSetProxy accepts s.userCount move hmove).stays
  | handle connects =>
      unfold moves
      cases s.backendGone cfg with
      | some p => exact fun move hmove => (reconnectMoves_begins p connects move hmove).stays
      | none => exact closing_stays h.2
  | expire fd => exact absurd rfl (hexpire fd)
  | deliver fd events => exact @closing_stays J cfg s none fun _ hnone => nomatch hnone
  | run index w => exact closing_stays h.2
  | elapse ms => exact @closing_stays J cfg s none fun _ hnone => nomatch hnone

/-- A timer closes its own connection. -/
theorem expire_timed {fd : Int} {r' : Registry} (htimed : s.registry.Timed)
    (h : Follows cfg (s.moves cfg (.expire fd)) s.registry r') : r'.Timed := by
  have hfd : (s.timer fd).map Prod.snd = (s.ends fd).map fun _ => fd := htimed fd
  have hmoves : s.moves cfg (.expire fd) =
      ((s.ends fd).map fun _ => Move.leaves fd).toList ++ [.fires fd] := by
    simp only [moves, closesConn, hfd]
    cases hends : s.ends fd with
    | none => rfl
    | some e =>
        simp only [Option.map_some, Option.getD_some, Option.toList_some]
        rw [closeMoves, hends, if_pos (by rfl)]
  rw [hmoves] at h
  cases hends : s.ends fd with
  | none =>
      rw [hends] at h
      obtain ⟨r₁, hfires, h⟩ := h.uncons
      cases h.eq_of_nil
      cases hfires
      intro d
      show Function.update s.registry.timers fd none d = _
      rw [Function.update_apply]
      split
      · rename_i hd
        rw [hd, show s.registry.ends fd = none from hends]
        rfl
      · exact htimed d
  | some e =>
      rw [hends] at h
      obtain ⟨r₁, hleaves, h⟩ := h.uncons
      obtain ⟨e', -, rfl⟩ := Option.map_eq_some_iff.mp hleaves
      obtain ⟨r₂, hfires, h⟩ := h.uncons
      cases h.eq_of_nil
      cases hfires
      exact htimed.leaves

/-- A connection that is closed takes nothing of another along. -/
theorem Closed.others {user user' : Int} {client client' : HttpConn J}
    (h : Closed cfg user client s s') (howned : Registry.Owned cfg.isSetProxy s.registry)
    (he : s.registry.ends user = some (client.fd, client.proxyFd))
    (he' : s.registry.ends user' = some (client'.fd, client'.proxyFd)) (hne : user' ≠ user) :
    s'.epoll client'.fd = s.epoll client'.fd ∧
      s'.epoll client'.proxyFd = s.epoll client'.proxyFd ∧
        s'.proxyFdMap client'.proxyFd = s.proxyFdMap client'.proxyFd := by
  obtain ⟨hself, hapart, hbackend⟩ := howned.filed user _ he
  obtain ⟨hself', -, hbackend'⟩ := howned.filed user' _ he'
  have hother : ∀ d, s.registry.Has user' d →
      d ≠ client.fd ∧ ¬ (d = client.proxyFd ∧ client.proxyFd ≠ -1) := by
    intro d hd
    constructor
    · rintro rfl
      exact hne (howned.unique hd ⟨_, he, Or.inl rfl⟩)
    · intro hproxyFd
      exact hne (howned.unique hd ⟨_, he, Or.inr hproxyFd⟩)
  have hmode : client.proxyFd ≠ -1 ↔ cfg.isSetProxy = true := hbackend
  have hepoll : ∀ d, s.registry.Has user' d → s'.epoll d = s.epoll d := by
    intro d hd
    obtain ⟨hfd, hproxyFd⟩ := hother d hd
    rw [h.epoll d, if_neg]
    rintro (heq | ⟨heq, hset | hneg⟩)
    · exact hfd heq
    · exact hproxyFd ⟨heq, hmode.mpr hset⟩
    · exact hproxyFd ⟨heq, hneg⟩
  have hmode' : client'.proxyFd ≠ -1 ↔ cfg.isSetProxy = true := hbackend'
  refine ⟨hepoll _ ⟨_, he', Or.inl rfl⟩, ?_, ?_⟩
  · by_cases hneg : client'.proxyFd = -1
    · -- in static mode -1 stands for no backend
      have hset : ¬ cfg.isSetProxy = true := fun hset => hmode'.mpr hset hneg
      have hfd : client'.proxyFd ≠ client.fd := by
        intro heq
        have howner := howned.owner_fd he
        rw [← heq, hneg, howned.below (-1) (by decide)] at howner
        cases howner
      rw [h.epoll, if_neg]
      rintro (heq | ⟨-, hset' | hneg'⟩)
      · exact hfd heq
      · exact hset hset'
      · exact hset (hmode.mp hneg')
    · exact hepoll _ ⟨_, he', Or.inr ⟨rfl, hneg⟩⟩
  · rw [h.proxyFdMap]
    split
    · rename_i hset
      obtain ⟨-, hproxyFd⟩ := hother _ ⟨_, he', Or.inr ⟨rfl, hmode'.mpr hset⟩⟩
      exact Function.update_of_ne (fun heq => hproxyFd ⟨heq, hmode.mpr hset⟩) ..
    · rfl

/-- With timers, those of the connections are armed and no others, as long as a timer is
all that closes a connection. -/
theorem timers_live (htimeout : 0 < cfg.timeout) {steps : List ServerStep} {os : List Unit}
    (honly : (server cfg).Meets (OnlyExpires cfg) new steps)
    (hrun : (server cfg).run steps = some (s, os)) : TimersLive cfg s := by
  have htimed : decide (cfg.timeout ≠ 0) = true := decide_eq_true (by omega)
  obtain ⟨howned, hlive⟩ : Registry.Owned cfg.isSetProxy s.registry ∧ s.registry.Timed := by
    apply run_registry (I := Registry.Timed) (fun _ => rfl) (fun _ _ h => h.1) _ honly hrun
    intro s₁ step r' _ htimed₁ hstep hfollows
    by_cases hexpire : ∃ fd, step = .expire fd
    · obtain ⟨fd, rfl⟩ := hexpire
      exact expire_timed htimed₁ hfollows
    · refine Follows.keeps (I := Registry.Timed) (P := fun _ => Registry.Stays) ?_ htimed₁
        (Machine.meets_of_forall fun move hmove _ => moves_stays hstep
          (fun fd heq => hexpire ⟨fd, heq⟩) move hmove) hfollows
      intro r move r' hr hstays hmove
      rw [htimed] at hmove
      exact hr.step hstays hmove
  have htimer : ∀ d, (s.timer d).map Prod.snd = (s.ends d).map fun _ => d := hlive
  have hlive : ∀ d deadline user, s.timer d = some (deadline, user) →
      user = d ∧ ∃ client, s.users d = some client ∧ client.isClose = false ∧ client.fd = d := by
    intro d deadline user hd
    have heq := htimer d
    rw [hd] at heq
    obtain ⟨e, he, huser⟩ := Option.map_eq_some_iff.mp heq.symm
    obtain ⟨client, hclient, hopen, rfl⟩ := ends_eq_some.mp he
    exact ⟨huser.symm, client, hclient, hopen, (howned.filed d _ he).1⟩
  constructor
  case armed =>
    intro d
    constructor
    · intro harmed
      obtain ⟨⟨deadline, user⟩, hd⟩ := Option.isSome_iff_exists.mp harmed
      obtain ⟨-, client, huser, hopen, hfd⟩ := hlive d deadline user hd
      exact ⟨d, client, huser, by simp [HttpConn.isConnected, hopen], hfd⟩
    · rintro ⟨user, client, huser, hopen, rfl⟩
      have he := ends_of_isConnected huser hopen
      have hself : client.fd = user := (howned.filed user _ he).1
      rw [← Option.isSome_map, htimer, hself, show s.ends user = _ from he]
      rfl
  case live =>
    intro d deadline user hd
    obtain ⟨rfl, client, huser, hopen, -⟩ := hlive d deadline user hd
    exact isConnected_of_user huser hopen
  case others =>
    intro d deadline user s' hd hexpire user' client' hne huser' hopen'
    obtain ⟨rfl, client, huser, hopen, -⟩ := hlive d deadline user hd
    unfold expire at hexpire
    simp only [hd] at hexpire
    obtain ⟨-, hexpire⟩ := Option.ite_none_right_eq_some.mp hexpire
    obtain ⟨s₁, hclose, heq⟩ := Option.bind_eq_some_iff.mp hexpire
    cases heq
    exact (closeConn_closed hclose huser hopen).others howned
      (ends_eq_some.mpr ⟨client, huser, hopen, rfl⟩) (ends_of_isConnected huser' hopen') hne

instance (cfg : ServerConfig J) (s : HttpServer J) : ∀ step, Decidable (OnlyExpires cfg s step)
  | .listen _ | .deliver _ _ | .handle _ | .run _ _ | .elapse _ | .expire _ => by
      unfold OnlyExpires
      infer_instance

/-- A server that closes after a second. -/
def secondSite : ServerConfig (Option HeaderMap) := { emptySite true with timeout := 1000 }

theorem timers_live_expire :
    ∃ s os, (server secondSite).run [.listen [⟨5, ⟨10, 0, 0, 7⟩, .connected 6⟩], .elapse 400,
        .listen [⟨7, ⟨10, 0, 0, 8⟩, .connected 8⟩], .elapse 600, .expire 5] = some (s, os) ∧
      TimersLive secondSite s ∧ (s.timer 5).isSome = false ∧ (s.timer 7).isSome = true := by
  have hstate : (((server secondSite).run [.listen [⟨5, ⟨10, 0, 0, 7⟩, .connected 6⟩],
      .elapse 400, .listen [⟨7, ⟨10, 0, 0, 8⟩, .connected 8⟩], .elapse 600, .expire 5]).map
      fun r => ((r.1.timer 5).isSome, (r.1.timer 7).isSome)) = some (false, true) := by
    decide +kernel
  obtain ⟨⟨s, os⟩, hrun, hstate⟩ := Option.map_eq_some_iff.mp hstate
  simp only [Prod.mk.injEq] at hstate
  have htimeout : 0 < secondSite.timeout := by decide
  exact ⟨s, os, hrun, timers_live htimeout (by decide +kernel) hrun, hstate⟩

def leavesEarly : List ServerStep :=
  [.listen [⟨5, ⟨10, 0, 0, 7⟩, .connected 6⟩], .deliver 5 EPOLLRDHUP, .handle [], .elapse 400,
    .listen [⟨6, ⟨10, 0, 0, 8⟩, .connected 5⟩], .elapse 600]

/-- A client leaves and its timer stays. When it is due the descriptor is that of a
backend, which `CloseConn` takes out of epoll. -/
theorem timer_outlives_connection :
    ∃ s os, (server secondSite).run leavesEarly = some (s, os) ∧ s.ends 6 = some (6, 5) ∧
      s.armed 5 = 1 ∧ (s.expire secondSite 5).map (armed 5) = some 0 ∧
      ¬ TimersLive secondSite s := by
  have hstate : (((server secondSite).run leavesEarly).map fun r =>
      (r.1.isConnected 5, r.1.ends 6, r.1.armed 5, (r.1.expire secondSite 5).map (armed 5))) =
        some (false, some (6, 5), 1, some 0) ∧
      (((server secondSite).run leavesEarly).bind fun r => r.1.timer 5) = some (1000, 5) := by
    decide +kernel
  obtain ⟨hstate, htimer⟩ := hstate
  obtain ⟨⟨s, os⟩, hrun, hstate⟩ := Option.map_eq_some_iff.mp hstate
  simp only [Prod.mk.injEq] at hstate
  obtain ⟨hclosed, hrest⟩ := hstate
  refine ⟨s, os, hrun, hrest.1, hrest.2.1, hrest.2.2, fun hlive => ?_⟩
  rw [hrun] at htimer
  rw [hlive.live 5 1000 5 htimer] at hclosed
  cases hclosed

end WhiteWebServer.HttpServer
