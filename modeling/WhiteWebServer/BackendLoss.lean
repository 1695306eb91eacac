import WhiteWebServer.Descriptors

/-!
# A backend is lost

`DealDisconnect` replaces the backend of a connection. §1 the connections that
`proxy_fd_map_` names are in `users_`, in every run; §2 the loop over the attempts; §3 when
it ends as it should.
-/

namespace WhiteWebServer.HttpServer

variable {J : Type} {cfg : ServerConfig J} {s s' s₁ : HttpServer J} {fd user : Int}
  {client : HttpConn J}

/-! ## §1  The connections of the map -/

/-- Every connection that `proxy_fd_map_` names is in `users_`. -/
def MapsUsers (s : HttpServer J) : Prop :=
  ∀ p user, s.proxyFdMap p = some user → (s.users user).isSome = true

/-- `users_` loses no entry, and what is new in `proxy_fd_map_` is in it. -/
structure Grows (s s' : HttpServer J) : Prop where
  users : ∀ user, (s.users user).isSome = true → (s'.users user).isSome = true
  proxyFdMap : ∀ p user, s'.proxyFdMap p = some user →
    s.proxyFdMap p = some user ∨ (s'.users user).isSome = true

theorem Grows.mapsUsers (h : Grows s s') (hs : MapsUsers s) : MapsUsers s' := by
  intro p user hmap
  rcases h.proxyFdMap p user hmap with hwas | hin
  · exact h.users user (hs p user hwas)
  · exact hin

theorem Grows.of_eq (husers : s'.users = s.users) (hmap : s'.proxyFdMap = s.proxyFdMap) :
    Grows s s' := by
  refine ⟨fun user h => ?_, fun p user h => Or.inl ?_⟩
  · rw [husers]
    exact h
  · rw [← hmap]
    exact h

theorem Grows.trans {s'' : HttpServer J} (h : Grows s s') (h' : Grows s' s'') : Grows s s'' := by
  refine ⟨fun user hin => h'.users user (h.users user hin), fun p user hmap => ?_⟩
  rcases h'.proxyFdMap p user hmap with hwas | hin
  · rcases h.proxyFdMap p user hwas with hwas | hin
    · exact Or.inl hwas
    · exact Or.inr (h'.users user hin)
  · exact Or.inr hin

theorem setUser_grows (fd : Int) (client : HttpConn J) (s : HttpServer J) :
    Grows s (s.setUser fd client) := by
  refine ⟨fun user h => ?_, fun p user h => Or.inl h⟩
  by_cases hu : user = fd
  · rw [hu, setUser_users_self]
    rfl
  · rw [setUser_users_other hu]
    exact h

theorem eraseProxy_grows (proxyFd : Int) (s : HttpServer J) : Grows s (s.eraseProxy proxyFd) := by
  refine ⟨fun user h => h, fun p user h => Or.inl ?_⟩
  rw [eraseProxy] at h
  dsimp only at h
  rw [Function.update_apply] at h
  split at h
  · cases h
  · exact h

theorem emplaceProxy_grows {proxyFd : Int} (h : (s.users user).isSome = true) :
    Grows s (s.emplaceProxy proxyFd user) := by
  unfold emplaceProxy
  split
  · exact Grows.of_eq rfl rfl
  · refine ⟨fun user h => h, fun p u hmap => ?_⟩
    dsimp only at hmap
    rw [Function.update_apply] at hmap
    split at hmap
    · obtain rfl := Option.some.inj hmap
      exact Or.inr h
    · exact Or.inl hmap

theorem userAt_grows (h : s.userAt cfg user = some (client, s₁)) :
    Grows s s₁ ∧ s₁.users user = some client := by
  unfold userAt at h
  split at h
  · rename_i huser
    obtain ⟨rfl, rfl⟩ := Prod.mk.inj (Option.some.inj h)
    exact ⟨Grows.of_eq rfl rfl, huser⟩
  · split at h
    · obtain ⟨rfl, rfl⟩ := Prod.mk.inj (Option.some.inj h)
      exact ⟨setUser_grows _ _ s, setUser_users_self⟩
    · cases h

theorem closeClient_grows (h : s.closeClient cfg fd client = some s') :
    Grows s s' ∧ (s'.users fd).isSome = true := by
  unfold closeClient at h
  cases hclose : client.close cfg.js with
  | error e => simp [hclose] at h
  | ok closed =>
      have hset := setUser_grows fd closed s
      rw [hclose] at h
      dsimp only at h
      split at h
      · obtain rfl := Option.some.inj h
        exact ⟨hset, by rw [setUser_users_self]; rfl⟩
      · obtain rfl := Option.some.inj h
        split
        · exact ⟨hset.trans (Grows.of_eq rfl rfl), by
            show ((s.setUser fd closed).users fd).isSome = true
            rw [setUser_users_self]
            rfl⟩
        · exact ⟨hset.trans (Grows.of_eq rfl rfl), by
            show ((s.setUser fd closed).users fd).isSome = true
            rw [setUser_users_self]
            rfl⟩

theorem closeConn_grows (h : s.closeConn cfg fd = some s') :
    Grows s s' ∧ (s'.users fd).isSome = true := by
  unfold closeConn at h
  obtain ⟨⟨client, s₁⟩, hat, h⟩ := Option.bind_eq_some_iff.mp h
  dsimp only at h
  obtain ⟨hclose, hin⟩ := closeClient_grows h
  refine ⟨(userAt_grows hat).1.trans (Grows.trans ?_ hclose), hin⟩
  have hdel : Grows s₁ (s₁.delFd client.fd) := Grows.of_eq rfl rfl
  split
  · exact hdel.trans ((eraseProxy_grows _ _).trans (Grows.of_eq rfl rfl))
  · exact hdel

/-- `proxy_fd_map_[fd]` and what is done with its result. -/
theorem proxyAt_grows {s'' : HttpServer J} (h : Grows (s.proxyAt fd).2 s'')
    (hin : (s''.users (s.proxyAt fd).1).isSome = true) : Grows s s'' := by
  unfold proxyAt at h hin
  split at h
  · exact h
  · rename_i hnone
    rw [hnone] at hin
    refine ⟨h.users, fun p user hmap => ?_⟩
    rcases h.proxyFdMap p user hmap with hwas | hthen
    · dsimp only at hwas
      rw [Function.update_apply] at hwas
      split at hwas
      · obtain rfl := Option.some.inj hwas
        exact Or.inr hin
      · exact Or.inl hwas
    · exact Or.inr hthen

theorem getNewProxyFd_grows {connect : Connect} {new : Int}
    (h : s.getNewProxyFd connect = some (new, s')) : Grows s s' := by
  rw [(getNewProxyFd_opened h).1.same]
  exact Grows.of_eq rfl rfl

/-- Whatever the attempts come to. -/
theorem reconnect_grows {new : Int} : ∀ (connects : List Connect) (retryCount : Nat)
    {s : HttpServer J}, s.reconnect cfg fd retryCount connects = some (new, s') → Grows s s' := by
  intro connects
  induction connects with
  | nil =>
      intro retryCount s h
      cases h
  | cons connect rest ih =>
      intro retryCount s h
      rw [reconnect] at h
      obtain ⟨⟨d, s₁⟩, hget, h⟩ := Option.bind_eq_some_iff.mp h
      have hopened := getNewProxyFd_grows hget
      dsimp only at h
      split at h
      · split at h
        · obtain ⟨s₂, hclose, h⟩ := Option.bind_eq_some_iff.mp h
          obtain ⟨hclosed, hin⟩ := closeConn_grows hclose
          exact hopened.trans ((proxyAt_grows hclosed hin).trans (ih _ h))
        · exact hopened.trans (ih _ h)
      · obtain ⟨-, rfl⟩ := Prod.mk.inj (Option.some.inj h)
        exact hopened

/-- The end of `DealDisconnect`. -/
def rebound (fd user new : Int) (client : HttpConn J) (s : HttpServer J) : HttpServer J :=
  (((s.setUser user (client.resetProxyFd new)).give new user).eraseProxy fd |>.emplaceProxy new
    user).watch new EPOLLIN

theorem rebound_grows (fd user new : Int) (client : HttpConn J) (s : HttpServer J) :
    Grows s (s.rebound fd user new client) := by
  have hset := setUser_grows user (client.resetProxyFd new) s
  have hgive : Grows s ((s.setUser user (client.resetProxyFd new)).give new user) :=
    hset.trans (Grows.of_eq rfl rfl)
  have herase := hgive.trans (eraseProxy_grows fd _)
  refine herase.trans ((emplaceProxy_grows ?_).trans (Grows.of_eq rfl rfl))
  show ((s.setUser user (client.resetProxyFd new)).users user).isSome = true
  rw [setUser_users_self]
  rfl

theorem dealDisconnect_grows {connects : List Connect}
    (h : s.dealDisconnect cfg connects fd = some s') : Grows s s' := by
  unfold dealDisconnect at h
  split at h
  · obtain ⟨⟨new, s₁⟩, hreconnect, h⟩ := Option.bind_eq_some_iff.mp h
    dsimp only at h
    obtain ⟨⟨client, s₃⟩, hat, h⟩ := Option.bind_eq_some_iff.mp h
    obtain rfl := Option.some.inj h
    obtain ⟨hgrows, huser⟩ := userAt_grows hat
    have hin : (s₃.users _).isSome = true := Option.isSome_iff_exists.mpr ⟨_, huser⟩
    have hclosed : Grows s₁ ((s₁.closeFd (.conn (s₁.proxyAt fd).1) fd).delFd fd) :=
      Grows.of_eq rfl rfl
    exact (reconnect_grows connects 0 hreconnect).trans (hclosed.trans
      ((proxyAt_grows hgrows hin).trans (rebound_grows _ _ _ _ _)))
  · exact (closeConn_grows h).1

/-! ### The other steps -/

theorem extentTime_grows (cfg : ServerConfig J) (client : HttpConn J) (s : HttpServer J) :
    Grows s (s.extentTime cfg client) := by
  rw [extentTime_eq]
  exact Grows.of_eq rfl rfl

theorem addClient_grows {addr : SockAddr} {proxyFd : Int}
    (h : s.addClient cfg fd addr proxyFd = some s') : Grows s s' := by
  have hadded := addClient_added h
  obtain ⟨client, husers, -⟩ := hadded.users
  have hset := setUser_grows fd client s
  have hin : ((s.setUser fd client).users fd).isSome = true := by
    rw [setUser_users_self]
    rfl
  have hmap := hadded.proxyFdMap
  split at hmap
  · have hemplace : Grows (s.setUser fd client) ((s.setUser fd client).emplaceProxy proxyFd fd) :=
      emplaceProxy_grows hin
    refine hset.trans (hemplace.trans (Grows.of_eq ?_ ?_))
    · rw [emplaceProxy_eq]
      exact husers
    · rw [hmap]
      unfold emplaceProxy setUser
      dsimp only
      split <;> rfl
  · exact hset.trans (Grows.of_eq husers hmap)

theorem dealListen_grows : ∀ (accepts : List Accept) {s : HttpServer J},
    s.dealListen cfg accepts = some s' → Grows s s' := by
  intro accepts
  induction accepts with
  | nil =>
      intro s h
      obtain rfl := Option.some.inj h
      exact Grows.of_eq rfl rfl
  | cons a rest ih =>
      intro s h
      have hopen : Grows s (s.openFd a.fd) := Grows.of_eq rfl rfl
      rw [dealListen] at h
      split at h
      · obtain rfl := Option.some.inj h
        exact Grows.of_eq rfl rfl
      · split at h
        · cases h
        · dsimp only at h
          split at h
          · obtain rfl := Option.some.inj h
            exact hopen.trans (Grows.of_eq rfl rfl)
          · split at h
            · obtain ⟨⟨proxyFd, s₁⟩, hget, h⟩ := Option.bind_eq_some_iff.mp h
              have hgot := hopen.trans (getNewProxyFd_grows hget)
              dsimp only at h
              split at h
              · exact hgot.trans (ih h)
              · obtain ⟨s₂, hadd, h⟩ := Option.bind_eq_some_iff.mp h
                exact hgot.trans ((addClient_grows hadd).trans (ih h))
            · obtain ⟨s₁, hadd, h⟩ := Option.bind_eq_some_iff.mp h
              exact hopen.trans ((addClient_grows hadd).trans (ih h))

theorem onRead_grows {w : TaskWorld} (h : s.onRead cfg w user = some s') : Grows s s' := by
  unfold onRead at h
  obtain ⟨⟨client, s₁⟩, hat, h⟩ := Option.bind_eq_some_iff.mp h
  have hgrows := (userAt_grows hat).1
  dsimp only at h
  split at h
  · exact hgrows.trans ((setUser_grows _ _ s₁).trans (closeConn_grows h).1)
  · split at h
    · unfold onProcessProxy at h
      split at h
      · cases h
      all_goals
        obtain rfl := Option.some.inj h
        exact hgrows.trans ((setUser_grows _ _ s₁).trans (Grows.of_eq rfl rfl))
    · unfold onProcessStatic at h
      split at h
      · cases h
      all_goals
        obtain rfl := Option.some.inj h
        exact hgrows.trans ((setUser_grows _ _ s₁).trans (Grows.of_eq rfl rfl))

theorem onWrite_grows {w : TaskWorld} {inProxy : Bool}
    (h : s.onWrite cfg w user inProxy = some s') : Grows s s' := by
  unfold onWrite at h
  obtain ⟨⟨client, s₁⟩, hat, h⟩ := Option.bind_eq_some_iff.mp h
  dsimp only at h
  have hgrows := (userAt_grows hat).1.trans
    (setUser_grows user (client.writeToFd w.last w.counts).2 s₁)
  unfold onWritten at h
  split at h
  · obtain rfl := Option.some.inj h
    exact hgrows.trans ((extentTime_grows _ _ _).trans (Grows.of_eq rfl rfl))
  · split at h
    · obtain rfl := Option.some.inj h
      exact hgrows.trans ((extentTime_grows _ _ _).trans (Grows.of_eq rfl rfl))
    · split at h
      · obtain rfl := Option.some.inj h
        exact hgrows.trans (Grows.of_eq rfl rfl)
      · split at h
        · obtain rfl := Option.some.inj h
          exact hgrows
        · exact hgrows.trans (closeConn_grows h).1

theorem serverStep_grows {step : ServerStep} (h : serverStep cfg s step = some s') :
    Grows s s' := by
  cases step with
  | listen accepts => exact dealListen_grows accepts h
  | deliver fd events =>
      rw [serverStep, deliver] at h
      split at h
      · cases h
      · split at h
        · obtain rfl := Option.some.inj h
          exact Grows.of_eq rfl rfl
        · cases h
  | handle connects =>
      rw [serverStep, handle] at h
      split at h
      · cases h
      · rename_i fd events rest hdelivered
        have hnext : Grows s { s with delivered := rest } := Grows.of_eq rfl rfl
        have htask : ∀ kind, dealTask cfg kind fd { s with delivered := rest } = some s' →
            Grows { s with delivered := rest } s' := by
          intro kind htask
          unfold dealTask at htask
          obtain ⟨⟨client, s₁⟩, hat, htask⟩ := Option.bind_eq_some_iff.mp htask
          obtain rfl := Option.some.inj htask
          exact (userAt_grows hat).1.trans ((extentTime_grows _ _ _).trans (Grows.of_eq rfl rfl))
        dsimp only at h
        split at h
        · exact hnext.trans (dealDisconnect_grows h)
        · split at h
          · exact hnext.trans (htask _ h)
          · split at h
            · exact hnext.trans (htask _ h)
            · obtain rfl := Option.some.inj h
              exact hnext
  | run index w =>
      rw [serverStep, runTask] at h
      split at h
      · cases h
      · rename_i task htask
        have hnext : Grows s { s with tasks := s.tasks.eraseIdx index } := Grows.of_eq rfl rfl
        dsimp only at h
        split at h
        · exact hnext.trans (onRead_grows h)
        · exact hnext.trans (onWrite_grows h)
  | elapse ms =>
      obtain rfl := Option.some.inj h
      exact Grows.of_eq rfl rfl
  | expire fd =>
      rw [serverStep, expire] at h
      split at h
      · cases h
      · split at h
        · obtain ⟨s₁, hclose, h⟩ := Option.bind_eq_some_iff.mp h
          obtain rfl := Option.some.inj h
          exact (closeConn_grows hclose).1.trans (Grows.of_eq rfl rfl)
        · cases h

theorem mapsUsers_run {ls : List ServerStep} {os : List Unit}
    (hrun : (server cfg).run ls = some (s, os)) : MapsUsers s := by
  refine Machine.run_invariant (I := MapsUsers) (fun p user hmap => by cases hmap) ?_ hrun
  intro s step s' o hs hstep
  exact (serverStep_grows (server_step.mp hstep)).mapsUsers hs

/-! ## §2  The attempts -/

/-- What the first six attempts meet. -/
def attempts (connects : Nat → Connect) : List Connect := (List.range 6).map connects

/-- The descriptor of the first attempt that connects. -/
def firstConnected : List Connect → Option Int
  | [] => none
  | .connected new :: _ => some new
  | _ :: rest => firstConnected rest

/-- The kernel can answer like this, up to the attempt that connects. -/
def Possible : List Connect → HttpServer J → Prop
  | [], _ => True
  | connect :: rest, s => ∃ new s', s.getNewProxyFd connect = some (new, s') ∧
      (connect.failed = true → Possible rest s')

theorem firstConnected_none {connects : List Connect} (h : firstConnected connects = none) :
    ∀ connect ∈ connects, connect.failed = true := by
  induction connects with
  | nil => exact fun connect hin => absurd hin List.not_mem_nil
  | cons connect rest ih =>
      intro connect' hin
      cases connect with
      | connected new => cases h
      | noSocket =>
          rcases List.mem_cons.mp hin with rfl | hin
          · rfl
          · exact ih h connect' hin
      | refused d =>
          rcases List.mem_cons.mp hin with rfl | hin
          · rfl
          · exact ih h connect' hin

theorem firstConnected_some {connects : List Connect} {new : Int}
    (h : firstConnected connects = some new) :
    ∃ failing rest, connects = failing ++ .connected new :: rest ∧
      ∀ connect ∈ failing, connect.failed = true := by
  induction connects with
  | nil => cases h
  | cons connect rest ih =>
      cases connect with
      | connected d =>
          obtain rfl := Option.some.inj h
          exact ⟨[], rest, rfl, fun connect hin => absurd hin List.not_mem_nil⟩
      | noSocket =>
          obtain ⟨failing, rest, rfl, hfailed⟩ := ih h
          refine ⟨.noSocket :: failing, rest, rfl, fun connect hin => ?_⟩
          rcases List.mem_cons.mp hin with rfl | hin
          · rfl
          · exact hfailed connect hin
      | refused d =>
          obtain ⟨failing, rest, rfl, hfailed⟩ := ih h
          refine ⟨.refused d :: failing, rest, rfl, fun connect hin => ?_⟩
          rcases List.mem_cons.mp hin with rfl | hin
          · rfl
          · exact hfailed connect hin

/-- No number of failures ends the loop. -/
theorem reconnect_failed : ∀ (connects : List Connect) (retryCount : Nat) (s : HttpServer J),
    (∀ connect ∈ connects, connect.failed = true) →
      s.reconnect cfg fd retryCount connects = none := by
  intro connects
  induction connects with
  | nil => exact fun _ _ _ => rfl
  | cons connect rest ih =>
      intro retryCount s hfailed
      have hrest := fun connect hin => hfailed connect (List.mem_cons_of_mem _ hin)
      rw [reconnect]
      cases hget : s.getNewProxyFd connect with
      | none => rfl
      | some r =>
          obtain ⟨new, s₁⟩ := r
          have hnew : new = -1 :=
            (getNewProxyFd_opened hget).2.1.mp (hfailed connect List.mem_cons_self)
          simp only [bind, Option.bind, if_pos hnew]
          split
          · split
            · rfl
            · exact ih _ _ hrest
          · exact ih _ _ hrest

/-- An attempt that connects ends it, behind at most five that fail. -/
theorem reconnect_connected {new : Int} {rest : List Connect} :
    ∀ (failing : List Connect) (retryCount : Nat) {s : HttpServer J},
      (∀ connect ∈ failing, connect.failed = true) → retryCount + failing.length ≤ 5 →
      Possible (failing ++ .connected new :: rest) s →
      ∃ s₁, s.reconnect cfg fd retryCount (failing ++ .connected new :: rest) = some (new, s₁) ∧
        Opened s s₁ := by
  intro failing
  induction failing with
  | nil =>
      intro retryCount s _ _ hpossible
      obtain ⟨d, s₁, hget, -⟩ := hpossible
      obtain ⟨hopened, hfailed, -⟩ := getNewProxyFd_opened hget
      have hne : d ≠ -1 := fun heq => absurd (hfailed.mpr heq) Bool.false_ne_true
      have hd : d = new := by
        simp only [getNewProxyFd, Option.ite_none_left_eq_some, Option.some.injEq,
          Prod.mk.injEq] at hget
        exact hget.2.1.symm
      refine ⟨s₁, ?_, hopened⟩
      rw [List.nil_append, reconnect, hget, ← hd]
      simp only [bind, Option.bind, if_neg hne]
  | cons connect failing ih =>
      intro retryCount s hfailed hlen hpossible
      obtain ⟨d, s₁, hget, hlater⟩ := hpossible
      have hfails := hfailed connect List.mem_cons_self
      obtain ⟨hopened, hiff, -⟩ := getNewProxyFd_opened hget
      rw [List.length_cons] at hlen
      obtain ⟨s₂, hreconnect, hopened'⟩ := ih (retryCount + 1)
        (fun connect hin => hfailed connect (List.mem_cons_of_mem _ hin)) (by omega)
        (hlater hfails)
      refine ⟨s₂, ?_, hopened.trans hopened'⟩
      rw [List.cons_append, reconnect, hget]
      simp only [bind, Option.bind, if_pos (hiff.mp hfails),
        if_neg (by omega : ¬ retryCount + 1 > 5)]
      exact hreconnect

theorem dealDisconnect_failed {connects : List Connect} (hset : cfg.isSetProxy = true)
    (hmap : s.proxyFdMap fd = some user)
    (hfailed : ∀ connect ∈ connects, connect.failed = true) :
    s.dealDisconnect cfg connects fd = none := by
  rw [dealDisconnect, if_pos ⟨hset, by rw [hmap]; rfl⟩, reconnect_failed connects 0 s hfailed]
  rfl

/-! ## §3  When the loop ends -/

/-- The client is bound to the new descriptor, and nothing else changes hands. -/
structure Rebinds (fd user new : Int) (s s' : HttpServer J) : Prop where
  users : ∃ client, s.users user = some client ∧
    s'.users = Function.update s.users user (some (client.resetProxyFd new))
  proxyFdMap : s'.proxyFdMap =
    Function.update (Function.update s.proxyFdMap fd none) new (some user)

/-- The client is closed, and `proxy_fd_map_` knows neither of its descriptors. -/
structure GivesUp (fd user : Int) (s s' : HttpServer J) : Prop where
  users : ∃ closed : HttpConn J, closed.isClose = true ∧
    s'.users = Function.update s.users user (some closed)
  backend : s'.proxyFdMap fd = none
  client : ∀ client, s.users user = some client → s'.proxyFdMap client.fd = none

/-- What `DealDisconnect` is to do for the backend `fd` of `users_[user]`: six attempts at
most, and then either end; `users_` gains no entry. -/
def EndsInTime (cfg : ServerConfig J) (connects : Nat → Connect) (fd user : Int)
    (s : HttpServer J) : Prop :=
  ∃ s', s.dealDisconnect cfg (attempts connects) fd = some s' ∧
    (∀ user, (s'.users user).isSome = true → (s.users user).isSome = true) ∧
    (firstConnected (attempts connects) = none → GivesUp fd user s s') ∧
    ∀ new, firstConnected (attempts connects) = some new → Rebinds fd user new s s'

/-- One of the first six attempts connects, and `proxy_fd_map_` has no old entry of another
client for its descriptor. -/
def ConnectsInTime (connects : Nat → Connect) (fd user : Int) (s : HttpServer J) : Prop :=
  ∃ new, firstConnected (attempts connects) = some new ∧
    (new = fd ∨ s.proxyFdMap new = none ∨ s.proxyFdMap new = some user)

theorem rebound_users (fd user new : Int) (client : HttpConn J) (s : HttpServer J) :
    (s.rebound fd user new client).users =
      Function.update s.users user (some (client.resetProxyFd new)) := by
  rw [rebound, emplaceProxy_eq]
  rfl

/-- An old entry for the new descriptor stays. -/
theorem rebound_proxyFdMap (fd user new : Int) (client : HttpConn J) (s : HttpServer J) :
    (s.rebound fd user new client).proxyFdMap =
      match Function.update s.proxyFdMap fd none new with
      | some _ => Function.update s.proxyFdMap fd none
      | none => Function.update (Function.update s.proxyFdMap fd none) new (some user) := by
  unfold rebound emplaceProxy
  cases hold : Function.update s.proxyFdMap fd none new with
  | none =>
      rw [show (eraseProxy fd (give new user (setUser user (client.resetProxyFd new) s))).proxyFdMap
        new = none from hold]
      rfl
  | some other =>
      rw [show (eraseProxy fd (give new user (setUser user (client.resetProxyFd new) s))).proxyFdMap
        new = some other from hold]
      rfl

theorem dealDisconnect_rebound {connects : List Connect} {new : Int} (hset : cfg.isSetProxy = true)
    (hmap : s.proxyFdMap fd = some user) (huser : s.users user = some client)
    (hreconnect : s.reconnect cfg fd 0 connects = some (new, s₁)) (hopened : Opened s s₁) :
    ∃ s₂ : HttpServer J, s₂.users = s.users ∧ s₂.proxyFdMap = s.proxyFdMap ∧
      s.dealDisconnect cfg connects fd = some (s₂.rebound fd user new client) := by
  have hsame := hopened.same
  have hmap₁ : s₁.proxyFdMap fd = some user := by
    rw [hsame]
    exact hmap
  have huser₁ : s₁.users user = some client := by
    rw [hsame]
    exact huser
  refine ⟨(s₁.closeFd (.conn user) fd).delFd fd, ?_, ?_, ?_⟩
  · rw [hsame]
    rfl
  · rw [hsame]
    rfl
  · have hproxyAt₁ : s₁.proxyAt fd = (user, s₁) := by
      rw [proxyAt, hmap₁]
    have hproxyAt : proxyAt fd ((s₁.closeFd (.conn user) fd).delFd fd) =
        (user, (s₁.closeFd (.conn user) fd).delFd fd) := by
      rw [proxyAt,
        show ((s₁.closeFd (.conn user) fd).delFd fd).proxyFdMap fd = some user from hmap₁]
    have huserAt : userAt cfg user ((s₁.closeFd (.conn user) fd).delFd fd) =
        some (client, (s₁.closeFd (.conn user) fd).delFd fd) :=
      userAt_of_user huser₁
    rw [dealDisconnect, if_pos ⟨hset, by rw [hmap]; rfl⟩]
    simp only [hreconnect, bind, Option.bind, hproxyAt₁, hproxyAt, huserAt]
    rfl

/-- What becomes of a first attempt that connects. -/
theorem dealDisconnect_connected {connects : Nat → Connect} {new : Int}
    (hset : cfg.isSetProxy = true) (hmap : s.proxyFdMap fd = some user)
    (huser : s.users user = some client) (hpossible : Possible (attempts connects) s)
    (hfirst : firstConnected (attempts connects) = some new) :
    ∃ s₂ : HttpServer J, s₂.users = s.users ∧ s₂.proxyFdMap = s.proxyFdMap ∧
      s.dealDisconnect cfg (attempts connects) fd = some (s₂.rebound fd user new client) := by
  obtain ⟨failing, rest, hattempts, hfailed⟩ := firstConnected_some hfirst
  have hlen : failing.length ≤ 5 := by
    have hsix : (attempts connects).length = 6 := by simp [attempts]
    rw [hattempts, List.length_append, List.length_cons] at hsix
    omega
  rw [hattempts] at hpossible ⊢
  obtain ⟨s₁, hreconnect, hopened⟩ :=
    reconnect_connected failing 0 hfailed (by omega) hpossible
  exact dealDisconnect_rebound hset hmap huser hreconnect hopened

/-- An old entry of another client for the new descriptor stands in the way of the new one. -/
theorem rebound_rebinds {new : Int} {s₂ : HttpServer J} (huser : s.users user = some client)
    (husers : s₂.users = s.users) (hsame : s₂.proxyFdMap = s.proxyFdMap) :
    Rebinds fd user new s (s₂.rebound fd user new client) ↔
      new = fd ∨ s.proxyFdMap new = none ∨ s.proxyFdMap new = some user := by
  constructor
  · rintro ⟨-, hbound⟩
    rw [rebound_proxyFdMap, hsame] at hbound
    by_cases hnew : new = fd
    · exact Or.inl hnew
    · apply Or.inr
      rw [Function.update_of_ne hnew] at hbound
      cases hold : s.proxyFdMap new with
      | none => exact Or.inl rfl
      | some other =>
          rw [hold] at hbound
          dsimp only at hbound
          have hother := congrFun hbound new
          rw [Function.update_of_ne hnew, Function.update_self] at hother
          exact Or.inr (hold.symm.trans hother)
  · intro hkey
    refine ⟨⟨client, huser, by rw [rebound_users, husers]⟩, ?_⟩
    rw [rebound_proxyFdMap, hsame]
    cases hold : Function.update s.proxyFdMap fd none new with
    | none => rfl
    | some other =>
        -- the old entry is the client's own
        have hne : new ≠ fd := by
          rintro rfl
          rw [Function.update_self] at hold
          cases hold
        rw [Function.update_of_ne hne] at hold
        have hown : s.proxyFdMap new = some user := by
          rcases hkey with heq | hnone | hown
          · exact absurd heq hne
          · rw [hold] at hnone
            cases hnone
          · exact hown
        dsimp only
        refine (Function.update_eq_self_iff.mpr ?_).symm
        rw [Function.update_of_ne hne, hown]

theorem rebound_users_isSome {new : Int} {s₂ : HttpServer J} (huser : s.users user = some client)
    (husers : s₂.users = s.users) (u : Int)
    (hin : ((s₂.rebound fd user new client).users u).isSome = true) :
    (s.users u).isSome = true := by
  rw [rebound_users, husers, Function.update_apply] at hin
  split at hin
  · rename_i hu
    rw [hu, huser]
    rfl
  · exact hin

/-- **Backend loss.** In every state a server reaches, for every sequence of outcomes: with
the backend of a client gone, `DealDisconnect` ends as it should exactly if one of the first
six attempts connects, on a descriptor that is no old key of `proxy_fd_map_`. -/
theorem backend_loss_iff (hset : cfg.isSetProxy = true) {ls : List ServerStep} {os : List Unit}
    (hrun : (server cfg).run ls = some (s, os)) (hmap : s.proxyFdMap fd = some user)
    (connects : Nat → Connect) (hpossible : Possible (attempts connects) s) :
    EndsInTime cfg connects fd user s ↔ ConnectsInTime connects fd user s := by
  obtain ⟨client, huser⟩ := Option.isSome_iff_exists.mp (mapsUsers_run hrun fd user hmap)
  constructor
  · rintro ⟨s', hdeal, -, -, hrebinds⟩
    cases hfirst : firstConnected (attempts connects) with
    | none =>
        rw [dealDisconnect_failed hset hmap (firstConnected_none hfirst)] at hdeal
        cases hdeal
    | some new =>
        obtain ⟨s₂, husers, hsame, hdeal'⟩ :=
          dealDisconnect_connected hset hmap huser hpossible hfirst
        obtain rfl := Option.some.inj (hdeal'.symm.trans hdeal)
        exact ⟨new, hfirst, (rebound_rebinds huser husers hsame).mp (hrebinds new hfirst)⟩
  · rintro ⟨new, hfirst, hkey⟩
    obtain ⟨s₂, husers, hsame, hdeal⟩ :=
      dealDisconnect_connected hset hmap huser hpossible hfirst
    refine ⟨_, hdeal, rebound_users_isSome huser husers, ?_, ?_⟩
    · intro hnone
      rw [hfirst] at hnone
      cases hnone
    · intro new' hnew'
      rw [hfirst] at hnew'
      obtain rfl := Option.some.inj hnew'
      exact (rebound_rebinds huser husers hsame).mpr hkey

/-- One client with one backend. -/
def oneBackend : List ServerStep := [.listen [⟨5, ⟨10, 0, 0, 7⟩, .connected 6⟩]]

/-- The second attempt connects; the socket of the first stays open. -/
theorem backend_loss_second :
    ∃ s os, (server (emptySite true)).run oneBackend = some (s, os) ∧
      EndsInTime (emptySite true) (fun k => if k = 0 then .refused 7 else .connected 8) 6 5 s := by
  have hstate : (((server (emptySite true)).run oneBackend).map fun r =>
      (r.1.proxyFdMap 6, r.1.proxyFdMap 8, r.1.openFds 7, r.1.openFds 8)) =
        some (some 5, none, false, false) := by
    decide +kernel
  obtain ⟨⟨s, os⟩, hrun, hstate⟩ := Option.map_eq_some_iff.mp hstate
  obtain ⟨hmap, hkey, h7, h8⟩ := by simpa only [Prod.mk.injEq] using hstate
  refine ⟨s, os, hrun, (backend_loss_iff rfl hrun hmap _ ?_).mpr ⟨8, rfl, Or.inr (Or.inl hkey)⟩⟩
  refine ⟨-1, s.openFd 7, ?_, fun _ => ⟨8, (s.openFd 7).openFd 8, ?_, fun h => by cases h⟩⟩
  · simp [getNewProxyFd, h7]
  · simp [getNewProxyFd, openFds_openFd, h8]

/-- No attempt ever connects. However many are made, `DealDisconnect` does not return. -/
theorem backend_loss_unbounded :
    ∃ s os, (server (emptySite true)).run oneBackend = some (s, os) ∧ s.proxyFdMap 6 = some 5 ∧
      Possible (attempts fun _ => .noSocket) s ∧
      ¬ EndsInTime (emptySite true) (fun _ => .noSocket) 6 5 s ∧
      ∀ n, s.dealDisconnect (emptySite true) (List.replicate n .noSocket) 6 = none := by
  have hstate : (((server (emptySite true)).run oneBackend).map fun r => r.1.proxyFdMap 6) =
      some (some 5) := by
    decide +kernel
  obtain ⟨⟨s, os⟩, hrun, hmap⟩ := Option.map_eq_some_iff.mp hstate
  have hfailed : ∀ n, ∀ connect ∈ List.replicate n Connect.noSocket, connect.failed = true := by
    intro n connect hin
    rw [List.eq_of_mem_replicate hin]
    rfl
  have hset : (emptySite true).isSetProxy = true := rfl
  have hpossible : ∀ n, Possible (List.replicate n .noSocket) s := by
    intro n
    induction n with
    | zero => trivial
    | succ n ih => exact ⟨-1, s, rfl, fun _ => ih⟩
  refine ⟨s, os, hrun, hmap, hpossible 6, ?_, fun n => dealDisconnect_failed hset hmap (hfailed n)⟩
  rintro ⟨s', hdeal, -⟩
  rw [show attempts (fun _ => .noSocket) = List.replicate 6 .noSocket from rfl,
    dealDisconnect_failed hset hmap (hfailed 6)] at hdeal
  cases hdeal

end WhiteWebServer.HttpServer
