import WhiteWebServer.Ownership
import Mathlib.Data.Set.Card

/-!
# The count of the users

`user_count` is what `DealListen` compares with `kMaxFd`. It is the number of connections
that are open, as long as `DealDisconnect` does not give up: a connection is counted once
where `AddClient` takes its descriptor, and given back once where `HttpConn::Close` finds
it open. Each handler of the event loop and each task is one atomic step. §1 the connections
of a registry; §2 the calls of the server; §3 its steps; §4 runs.
-/

namespace WhiteWebServer

/-! ## §1  The connections of a registry -/

/-- A connection comes or goes. -/
def Move.ChangesUsers : Move → Prop
  | .joins _ _ | .leaves _ => True
  | _ => False

namespace Registry

variable {proxied timed : Bool} {r r' : Registry} {fd p user : Int} {e : Int × Int}

/-- The connections that are open. -/
def users (r : Registry) : Set Int := {user | (r.ends user).isSome = true}

theorem users_of_ends (h : r'.ends = r.ends) : r'.users = r.users := by
  rw [users, users, h]

theorem users_empty : Registry.empty.users = ∅ := by
  apply Set.eq_empty_of_forall_notMem
  intro user huser
  exact Bool.false_ne_true huser

theorem users_join : (r.join timed fd p).users = insert fd r.users := by
  ext user
  rw [Set.mem_insert_iff]
  show (Function.update r.ends fd (some (fd, p)) user).isSome = true ↔ _
  rw [Function.update_apply]
  split
  · rename_i heq
    exact iff_of_true rfl (Or.inl heq)
  · rename_i hne
    exact (or_iff_right hne).symm

theorem users_leave : (r.leave proxied user e).users = r.users \ {user} := by
  ext u
  show ((r.leave proxied user e).ends u).isSome = true ↔ _
  rw [leave_ends, Function.update_apply, Set.mem_sdiff, Set.mem_singleton_iff]
  split
  · rename_i heq
    exact iff_of_false Bool.false_ne_true fun hand => hand.2 heq
  · rename_i hne
    exact (and_iff_left hne).symm

/-- A connection that has a new backend is the same connection. -/
theorem users_rebind {new : Int} (he : r.ends user = some e) :
    (r.rebind p new user e).users = r.users := by
  ext u
  show (Function.update r.ends user (some (e.1, new)) u).isSome = true ↔ _
  rw [Function.update_apply]
  split
  · rename_i heq
    refine iff_of_true rfl ?_
    show (r.ends u).isSome = true
    rw [heq, he]
    rfl
  · rfl

theorem users_step {move : Move} (hchanges : ¬ move.ChangesUsers)
    (hstep : r.step proxied timed move = some r') : r'.users = r.users := by
  cases step_moved hstep with
  | joins => exact absurd trivial hchanges
  | leaves => exact absurd trivial hchanges
  | rebinds hmap he => exact users_rebind he
  | _ => exact users_of_ends rfl

end Registry

namespace HttpServer

variable {J : Type} {cfg : ServerConfig J} {s s' : HttpServer J} {fd user : Int}
  {client client' : HttpConn J}

/-! ## §2  The calls -/

/-- What is counted are the open connections, and there are no more of them than there may be. -/
structure Counted (s : HttpServer J) : Prop where
  count : s.registry.users.encard = s.userCount
  bound : s.userCount ≤ kMaxFd

theorem Counted.new : Counted (new : HttpServer J) where
  count := by
    show Registry.empty.users.encard = ((0 : Nat) : ℕ∞)
    rw [Registry.users_empty, Set.encard_empty]
    rfl
  bound := Nat.zero_le _

theorem Counted.of_same (h : Counted s) (husers : s'.registry.users = s.registry.users)
    (hcount : s'.userCount = s.userCount) : Counted s' where
  count := by
    rw [husers, hcount]
    exact h.count
  bound := hcount ▸ h.bound

theorem Counted.of_registry (h : Counted s) (hregistry : s'.registry = s.registry)
    (hcount : s'.userCount = s.userCount) : Counted s' :=
  h.of_same (congrArg Registry.users hregistry) hcount

theorem Counted.joins {proxied timed : Bool} {p : Int} (h : Counted s)
    (howned : Registry.Owned proxied s.registry) (hroom : s.userCount < kMaxFd)
    (hstep : s.registry.step proxied timed (.joins fd p) = some s'.registry)
    (hcount : s'.userCount = s.userCount + 1) : Counted s' := by
  obtain ⟨⟨hfresh, -⟩, hjoin⟩ := Option.ite_none_right_eq_some.mp hstep
  have hnew : fd ∉ s.registry.users := by
    show ¬ (s.registry.ends fd).isSome = true
    rw [howned.ends_of_fresh hfresh]
    exact Bool.false_ne_true
  constructor
  case count =>
    rw [← Option.some.inj hjoin, Registry.users_join, Set.encard_insert_of_notMem hnew, h.count,
      hcount]
    rfl
  case bound =>
    rw [hcount]
    exact hroom

theorem Counted.leaves {proxied timed : Bool} (h : Counted s)
    (hstep : s.registry.step proxied timed (.leaves user) = some s'.registry)
    (hcount : s'.userCount = s.userCount - 1) : Counted s' := by
  obtain ⟨e, he, hleave⟩ := Option.map_eq_some_iff.mp hstep
  have hmem : user ∈ s.registry.users := by
    show (s.registry.ends user).isSome = true
    rw [he]
    rfl
  constructor
  case count =>
    rw [← hleave, Registry.users_leave, Set.encard_sdiff_singleton_of_mem hmem, h.count, hcount]
    exact (ENat.natCast_sub ..).symm
  case bound =>
    rw [hcount]
    exact (Nat.sub_le ..).trans h.bound

theorem userAt_userCount {s₁ : HttpServer J} (h : s.userAt cfg user = some (client, s₁)) :
    s₁.userCount = s.userCount := by
  unfold userAt at h
  split at h
  · cases h
    rfl
  split at h
  · cases h
    rfl
  · cases h

theorem extentTime_userCount (cfg : ServerConfig J) (client : HttpConn J) (s : HttpServer J) :
    (s.extentTime cfg client).userCount = s.userCount := by
  rw [extentTime_eq]

theorem proxyAt_userCount (fd : Int) (s : HttpServer J) :
    (s.proxyAt fd).2.userCount = s.userCount := by
  unfold proxyAt
  split <;> rfl

theorem closeConn_userCount (h : s.closeConn cfg user = some s') :
    s'.userCount = if (s.ends user).isSome then s.userCount - 1 else s.userCount := by
  unfold closeConn at h
  obtain ⟨⟨client, s₁⟩, hat, h⟩ := Option.bind_eq_some_iff.mp h
  obtain ⟨-, -, hends, -⟩ := userAt_registry hat
  rw [← hends, ← userAt_userCount hat]
  dsimp only at h
  unfold closeClient at h
  cases hclose : client.close cfg.js with
  | error e => simp [hclose] at h
  | ok closed =>
      simp only [hclose] at h
      split at h
      · rename_i hisClose
        rw [HttpConn.ends_of_closed hisClose]
        obtain rfl := Option.some.inj h
        cases cfg.isSetProxy <;> rfl
      · rename_i hopen
        rw [HttpConn.ends_of_open (Bool.eq_false_iff.mpr hopen)]
        obtain rfl := Option.some.inj h
        split <;> cases cfg.isSetProxy <;> rfl

theorem closeConn_counted (h : Counted s) (hclose : s.closeConn cfg user = some s') :
    Counted s' := by
  have hfollows := closeConn_follows hclose
  have hcount := closeConn_userCount hclose
  unfold closeMoves at hfollows
  split at hfollows
  · rename_i hopen
    rw [if_pos hopen] at hcount
    obtain ⟨r₁, hstep, hnil⟩ := hfollows.uncons
    rw [← hnil.eq_of_nil] at hstep
    exact h.leaves hstep hcount
  · rename_i hclosed
    rw [if_neg hclosed] at hcount
    split at hfollows
    · obtain ⟨r₁, hstep, hnil⟩ := hfollows.uncons
      rw [← hnil.eq_of_nil] at hstep
      exact h.of_same (Registry.users_step id hstep) hcount
    · exact h.of_registry hfollows.eq_of_nil hcount

theorem setUser_counted (h : Counted s) (hends : client.ends = s.ends user) :
    Counted (s.setUser user client) :=
  h.of_registry (setUser_registry hends) rfl

/-- What a task holds is counted like what the server has. -/
theorem userAt_counted {s₁ : HttpServer J} (h : Counted s)
    (hat : s.userAt cfg user = some (client, s₁)) :
    Counted s₁ ∧ client.ends = s₁.ends user := by
  obtain ⟨hregistry, -, hends, -⟩ := userAt_registry hat
  refine ⟨h.of_registry hregistry (userAt_userCount hat), ?_⟩
  rw [hends]
  exact (congrFun (congrArg Registry.ends hregistry) user).symm

/-! ## §3  The steps -/

theorem onProcessStatic_userCount {w : TaskWorld}
    (h : s.onProcessStatic cfg w user client = some s') : s'.userCount = s.userCount := by
  unfold onProcessStatic at h
  split at h
  · cases h
  all_goals
    cases h
    rfl

theorem onProcessProxy_userCount {w : TaskWorld}
    (h : s.onProcessProxy cfg w user client = some s') : s'.userCount = s.userCount := by
  unfold onProcessProxy at h
  split at h
  · cases h
  all_goals
    cases h
    rfl

theorem onRead_counted {w : TaskWorld} (h : Counted s) (hread : s.onRead cfg w user = some s') :
    Counted s' := by
  unfold onRead at hread
  obtain ⟨⟨client, s₁⟩, hat, hread⟩ := Option.bind_eq_some_iff.mp hread
  dsimp only at hread
  obtain ⟨h₁, hends⟩ := userAt_counted h hat
  have hsame : HttpConn.SameEnds client (client.readFromFd w.reads) := ⟨rfl, rfl, rfl⟩
  have hends₁ : (client.readFromFd w.reads).ends = s₁.ends user := hsame.ends.trans hends
  split at hread
  · exact closeConn_counted (setUser_counted h₁ hends₁) hread
  split at hread
  · exact h₁.of_registry (onProcessProxy_registry hends₁ hread) (onProcessProxy_userCount hread)
  · exact h₁.of_registry (onProcessStatic_registry hends₁ hread) (onProcessStatic_userCount hread)

theorem onWritten_counted {inProxy : Bool} {write : HttpConn.WriteEnd} (h : Counted s)
    (hwritten : s.onWritten cfg user inProxy write client = some s') : Counted s' := by
  have hextent : Counted (s.extentTime cfg client) :=
    h.of_registry (extentTime_registry cfg client s) (extentTime_userCount cfg client s)
  unfold onWritten at hwritten
  split at hwritten
  · cases hwritten
    exact hextent.of_registry rfl rfl
  split at hwritten
  · cases hwritten
    exact hextent.of_registry rfl rfl
  split at hwritten
  · cases hwritten
    exact h.of_registry rfl rfl
  split at hwritten
  · cases hwritten
    exact h
  · exact closeConn_counted h hwritten

theorem onWrite_counted {w : TaskWorld} {inProxy : Bool} (h : Counted s)
    (hwrite : s.onWrite cfg w user inProxy = some s') : Counted s' := by
  unfold onWrite at hwrite
  obtain ⟨⟨client, s₁⟩, hat, hwrite⟩ := Option.bind_eq_some_iff.mp hwrite
  dsimp only at hwrite
  obtain ⟨h₁, hends⟩ := userAt_counted h hat
  have hsame : HttpConn.SameEnds client (client.writeToFd w.last w.counts).2 :=
    (HttpConn.writeLoop_same w.last w.counts 0 client).1
  exact onWritten_counted (setUser_counted h₁ (hsame.ends.trans hends)) hwrite

theorem runTask_counted {index : Nat} {w : TaskWorld} (h : Counted s)
    (hrun : s.runTask cfg index w = some s') : Counted s' := by
  unfold runTask at hrun
  split at hrun
  · cases hrun
  · rename_i task _
    have h₁ : Counted { s with tasks := s.tasks.eraseIdx index } := h.of_registry rfl rfl
    dsimp only at hrun
    split at hrun
    · exact onRead_counted h₁ hrun
    · exact onWrite_counted h₁ hrun

theorem dealTask_counted {kind : TaskKind} (h : Counted s)
    (hdeal : s.dealTask cfg kind fd = some s') : Counted s' := by
  refine h.of_registry (dealTask_registry hdeal) ?_
  unfold dealTask at hdeal
  dsimp only at hdeal
  split at hdeal
  all_goals
    obtain ⟨⟨client, s₁⟩, hat, hdeal⟩ := Option.bind_eq_some_iff.mp hdeal
    cases hdeal
    exact (extentTime_userCount cfg client s₁).trans (userAt_userCount hat)

theorem dealDisconnect_userCount {p : Int} {connects : List Connect}
    (hset : cfg.isSetProxy = true) (hmapped : (s.proxyFdMap p).isSome)
    (hretries : (connects.takeWhile Connect.failed).length ≤ 5)
    (hdeal : s.dealDisconnect cfg connects p = some s') : s'.userCount = s.userCount := by
  unfold dealDisconnect at hdeal
  rw [if_pos ⟨hset, hmapped⟩] at hdeal
  obtain ⟨⟨new, s₁⟩, hreconnect, hdeal⟩ := Option.bind_eq_some_iff.mp hdeal
  obtain ⟨hopened, -⟩ := reconnect_opened connects 0 (by omega) hreconnect
  obtain ⟨⟨client, s₂⟩, hat, hdeal⟩ := Option.bind_eq_some_iff.mp hdeal
  have hcount₁ : s₁.userCount = s.userCount := by rw [hopened.same]
  have hcount₂ : s₂.userCount = s₁.userCount :=
    (userAt_userCount hat).trans
      (proxyAt_userCount p ((s₁.closeFd (.conn (s₁.proxyAt p).1) p).delFd p))
  cases hdeal
  rw [emplaceProxy_eq]
  exact hcount₂.trans hcount₁

/-- No move of `DealDisconnect` for a backend brings a connection or takes one. -/
theorem reconnectMoves_users {r r' : Registry} {p : Int} {connects : List Connect}
    (hfollows : Follows cfg (reconnectMoves p connects) r r') : r'.users = r.users := by
  have hquiet : ∀ connects, ∀ move ∈ reconnectMoves p connects, ¬ move.ChangesUsers := by
    intro connects
    induction connects with
    | nil => exact fun move hmove => absurd hmove List.not_mem_nil
    | cons connect rest ih =>
        cases connect with
        | noSocket => exact ih
        | refused d => exact List.forall_mem_cons.mpr ⟨id, ih⟩
        | connected new => exact List.forall_mem_singleton.mpr id
  refine Follows.keeps (I := fun r₁ => r₁.users = r.users)
    (P := fun _ move => ¬ move.ChangesUsers) ?_ rfl ?_ hfollows
  · intro r₁ move r₂ hr₁ hmove hstep
    exact (Registry.users_step hmove hstep).trans hr₁
  · exact Machine.meets_of_forall fun move hmove _ => hquiet connects move hmove

theorem handle_counted {connects : List Connect} (h : Counted s)
    (howned : Registry.Owned cfg.isSetProxy s.registry)
    (hpatient : Patient cfg s (.handle connects))
    (hhandle : s.handle cfg connects = some s') : Counted s' := by
  unfold handle at hhandle
  unfold Patient backendGone at hpatient
  cases hdelivered : s.delivered with
  | nil => simp [hdelivered] at hhandle
  | cons e rest =>
      obtain ⟨fd, events⟩ := e
      simp only [hdelivered] at hhandle hpatient
      have h₁ : Counted { s with delivered := rest } := h.of_registry rfl rfl
      split at hhandle
      · rename_i hhup
        by_cases hmapped : cfg.isSetProxy ∧ (s.proxyFdMap fd).isSome
        · rw [if_pos ⟨hhup, hmapped⟩] at hpatient
          have hfollows := dealDisconnect_follows (s := { s with delivered := rest }) howned
            hmapped.1 hmapped.2 (hpatient rfl) hhandle
          exact h₁.of_same (reconnectMoves_users hfollows)
            (dealDisconnect_userCount hmapped.1 hmapped.2 (hpatient rfl) hhandle)
        · unfold dealDisconnect at hhandle
          rw [if_neg hmapped] at hhandle
          exact closeConn_counted h₁ hhandle
      split at hhandle
      · exact dealTask_counted h₁ hhandle
      split at hhandle
      · exact dealTask_counted h₁ hhandle
      · cases hhandle
        exact h₁

theorem dealListen_counted : ∀ (accepts : List Accept) {s : HttpServer J}, Counted s →
    Registry.Owned cfg.isSetProxy s.registry → s.dealListen cfg accepts = some s' →
      Counted s' := by
  intro accepts
  induction accepts with
  | nil =>
      intro s h _ hlisten
      exact Option.some.inj hlisten ▸ h
  | cons a rest ih =>
      intro s h howned hlisten
      unfold dealListen at hlisten
      split at hlisten
      · exact Option.some.inj hlisten ▸ h
      rename_i hfd
      split at hlisten
      · cases hlisten
      rename_i hfree
      have hfresh := fresh_of_free hfd hfree
      have hopened : Registry.Owned cfg.isSetProxy (s.openFd a.fd).registry :=
        howned.strands hfresh
      have hcounted : Counted (s.openFd a.fd) := h.of_same rfl rfl
      dsimp only at hlisten
      split at hlisten
      · -- the client is turned away
        cases hlisten
        exact h.of_same rfl rfl
      rename_i hroom
      have hroom : s.userCount < kMaxFd := not_le.mp hroom
      by_cases hset : cfg.isSetProxy = true
      · rw [if_pos hset] at hlisten
        obtain ⟨⟨p, s₁⟩, hget, hlisten⟩ := Option.bind_eq_some_iff.mp hlisten
        dsimp only at hlisten
        cases hconnect : a.connect with
        | noSocket =>
            rw [hconnect] at hget
            obtain ⟨rfl, rfl⟩ := Prod.mk.inj (Option.some.inj hget)
            rw [if_pos rfl] at hlisten
            exact ih hcounted hopened hlisten
        | refused d =>
            simp only [hconnect, getNewProxyFd, Option.ite_none_left_eq_some, not_or,
              Option.some.injEq, Prod.mk.injEq] at hget
            obtain ⟨⟨hd, hdfree⟩, rfl, rfl⟩ := hget
            have hboth : Registry.Owned cfg.isSetProxy ((s.openFd a.fd).openFd d).registry :=
              hopened.strands (fresh_of_free hd hdfree)
            rw [if_pos rfl] at hlisten
            have hstill : Counted ((s.openFd a.fd).openFd d) := hcounted.of_same rfl rfl
            exact ih hstill hboth hlisten
        | connected d =>
            simp only [hconnect, getNewProxyFd, Option.ite_none_left_eq_some, not_or,
              Option.some.injEq, Prod.mk.injEq] at hget
            obtain ⟨⟨hd, hdfree⟩, rfl, rfl⟩ := hget
            have hneg : d ≠ -1 := by
              rintro rfl
              exact hd (by decide)
            rw [if_neg hneg] at hlisten
            obtain ⟨s₂, hadd, hrest⟩ := Option.bind_eq_some_iff.mp hlisten
            obtain ⟨hstep, hcount⟩ :=
              addClient_joins_backend howned hset hfresh (fresh_of_free hd hdfree) hadd
            exact ih (h.joins howned hroom hstep hcount) (howned.step hstep) hrest
      · rw [if_neg hset] at hlisten
        obtain ⟨s₂, hadd, hrest⟩ := Option.bind_eq_some_iff.mp hlisten
        obtain ⟨hstep, hcount⟩ := addClient_joins howned hset hfresh hadd
        exact ih (h.joins howned hroom hstep hcount) (howned.step hstep) hrest

theorem expire_counted (h : Counted s) (hexpire : s.expire cfg fd = some s') : Counted s' := by
  unfold expire at hexpire
  split at hexpire
  · cases hexpire
  obtain ⟨-, hexpire⟩ := Option.ite_none_right_eq_some.mp hexpire
  obtain ⟨s₁, hclose, heq⟩ := Option.bind_eq_some_iff.mp hexpire
  cases heq
  exact (closeConn_counted h hclose).of_same rfl rfl

theorem serverStep_counted {step : ServerStep} (h : Counted s)
    (howned : Registry.Owned cfg.isSetProxy s.registry) (hpatient : Patient cfg s step)
    (hstep : serverStep cfg s step = some s') : Counted s' := by
  cases step with
  | listen accepts => exact dealListen_counted accepts h howned hstep
  | deliver fd events =>
      have hstep : s.deliver fd events = some s' := hstep
      unfold deliver at hstep
      split at hstep
      · cases hstep
      · obtain ⟨-, heq⟩ := Option.ite_none_right_eq_some.mp hstep
        cases heq
        exact h.of_registry rfl rfl
  | handle connects => exact handle_counted h howned hpatient hstep
  | run index w => exact runTask_counted h hstep
  | elapse ms =>
      cases hstep
      exact h.of_registry rfl rfl
  | expire fd => exact expire_counted h hstep

/-! ## §4  Runs -/

/-- **The count of the users is the number of connections that are open**, and there are
never more than `kMaxFd` of them, whatever clients, backends, workers and timers do and in
whatever order, as long as `DealDisconnect` does not give up. -/
theorem userCount_connections {steps : List ServerStep} {os : List Unit}
    (hmeets : (server cfg).Meets (Patient cfg) new steps)
    (hrun : (server cfg).run steps = some (s, os)) :
    {fd | s.isConnected fd = true}.encard = s.userCount ∧ s.userCount ≤ kMaxFd := by
  have hboth : Registry.Owned cfg.isSetProxy s.registry ∧ Counted s := by
    apply Machine.run_invariant_of_meets (M := server cfg)
      (I := fun s : HttpServer J => Registry.Owned cfg.isSetProxy s.registry ∧ Counted s)
      ⟨Registry.Owned.empty, Counted.new⟩ _ hmeets hrun
    intro s₁ step s₂ o h hpatient hstep
    have hstep := server_step.mp hstep
    refine ⟨?_, serverStep_counted h.2 h.1 hpatient hstep⟩
    exact Follows.keeps (P := fun _ _ => True) (fun r move r' hr _ hmove => hr.step hmove) h.1
      (Machine.meets_true _ _ _) (serverStep_follows h.1 hpatient hstep)
  have hsame : {fd | s.isConnected fd = true} = s.registry.users := by
    ext fd
    show s.isConnected fd = true ↔ _
    rw [isConnected_eq_ends]
    rfl
  rw [hsame]
  exact ⟨hboth.2.count, hboth.2.bound⟩

/-- Two clients come; the backend of one is replaced, and then it goes. -/
def oneOfTwo : List ServerStep :=
  [.listen [⟨5, ⟨10, 0, 0, 7⟩, .connected 6⟩, ⟨7, ⟨10, 0, 0, 8⟩, .connected 8⟩],
    .deliver 6 EPOLLRDHUP, .handle [.noSocket, .connected 9], .deliver 5 EPOLLRDHUP, .handle []]

theorem userCount_connections_one :
    ∃ s os, (server (emptySite true)).run oneOfTwo = some (s, os) ∧
      {fd | s.isConnected fd = true}.encard = 1 := by
  have hstate : ((server (emptySite true)).run oneOfTwo).map (fun r => r.1.userCount) =
      some 1 := by
    decide +kernel
  obtain ⟨⟨s, os⟩, hrun, hcount⟩ := Option.map_eq_some_iff.mp hstate
  have hcount : s.userCount = 1 := hcount
  refine ⟨s, os, hrun, ?_⟩
  have hpatient : (server (emptySite true)).Meets (Patient (emptySite true)) new oneOfTwo := by
    decide +kernel
  rw [(userCount_connections hpatient hrun).1, hcount]
  rfl

end HttpServer

end WhiteWebServer
