import WhiteWebServer.ProxyTokens
import WhiteWebServer.Registry

/-!
# The server keeps the registry

Every step of the server is a list of moves of the registry, as long as
`DealDisconnect` does not give up. §1 what the server has of the registry; §2 the
moves of a step; §3 the parts of a step; §4 runs; §5 no descriptor is leaked or closed
twice, as long as every connect succeeds that `DealListen` needs.
-/

namespace WhiteWebServer

namespace HttpConn

variable {J : Type} {client client' : HttpConn J}

/-- `fd_` and `proxy_fd_`, where it is connected. -/
def ends (client : HttpConn J) : Option (Int × Int) :=
  if client.isClose then none else some (client.fd, client.proxyFd)

theorem SameEnds.ends (h : SameEnds client client') : client'.ends = client.ends := by
  unfold HttpConn.ends
  rw [h.isClose, h.fd, h.proxyFd]

theorem ends_of_closed (h : client.isClose = true) : client.ends = none := if_pos h

theorem ends_of_open (h : client.isClose = false) :
    client.ends = some (client.fd, client.proxyFd) :=
  if_neg (by rw [h]; decide)

end HttpConn

namespace HttpServer

variable {J : Type} {cfg : ServerConfig J} {s s' : HttpServer J} {fd user : Int}
  {client client' : HttpConn J}

/-! ## §1  The registry of a server -/

def ends (user : Int) (s : HttpServer J) : Option (Int × Int) := (s.users user).bind HttpConn.ends

def registry (s : HttpServer J) : Registry where
  ends user := s.ends user
  owner := s.owner
  closings := s.closings
  proxyFdMap := s.proxyFdMap
  timers d := (s.timer d).map Prod.snd

/-- `GetProxyFd()` of `users_[user]` -/
def proxyFdOf (cfg : ServerConfig J) (user : Int) (s : HttpServer J) : Int :=
  match s.users user with
  | some client => client.proxyFd
  | none => (cfg.junk user).proxyFd

theorem ends_eq_some {e : Int × Int} : s.ends user = some e ↔
    ∃ client, s.users user = some client ∧ client.isClose = false ∧
      e = (client.fd, client.proxyFd) := by
  unfold ends
  rw [Option.bind_eq_some_iff]
  refine exists_congr fun client => and_congr_right fun _ => ?_
  cases hopen : client.isClose with
  | true =>
      rw [HttpConn.ends_of_closed hopen]
      exact iff_of_false (fun h => nomatch h) fun h => nomatch h.1
  | false =>
      rw [HttpConn.ends_of_open hopen, Option.some.injEq, eq_comm]
      exact (and_iff_right rfl).symm

theorem isConnected_eq_ends (s : HttpServer J) (user : Int) :
    s.isConnected user = (s.ends user).isSome := by
  rw [Bool.eq_iff_iff, isConnected_iff, Option.isSome_iff_exists]
  constructor
  · rintro ⟨client, huser, hopen⟩
    exact ⟨_, ends_eq_some.mpr ⟨client, huser, hopen, rfl⟩⟩
  · rintro ⟨e, he⟩
    obtain ⟨client, huser, hopen, -⟩ := ends_eq_some.mp he
    exact ⟨client, huser, hopen⟩

/-- A connection that keeps its descriptors is the same for the registry. -/
theorem setUser_registry (h : client.ends = s.ends user) :
    (s.setUser user client).registry = s.registry := by
  unfold registry
  congr 1
  funext u
  by_cases hu : u = user
  · subst hu
    rw [ends, setUser_users_self]
    exact h
  · rw [ends, setUser_users_other hu]
    rfl

theorem userAt_registry {s₁ : HttpServer J} (h : s.userAt cfg user = some (client, s₁)) :
    s₁.registry = s.registry ∧ s₁.users user = some client ∧ client.ends = s.ends user ∧
      client.proxyFd = s.proxyFdOf cfg user ∧ s₁.tasks = s.tasks ∧ s₁.delivered = s.delivered := by
  unfold userAt at h
  cases huser : s.users user with
  | some client' =>
      rw [huser] at h
      obtain ⟨rfl, rfl⟩ := Prod.mk.inj (Option.some.inj h)
      refine ⟨rfl, huser, ?_, ?_, rfl, rfl⟩
      · rw [ends, huser]
        rfl
      · rw [proxyFdOf, huser]
  | none =>
      simp only [huser] at h
      cases hnew : HttpConn.new cfg.js (cfg.junk user) with
      | error e => simp [hnew] at h
      | ok client' =>
          rw [hnew] at h
          obtain ⟨rfl, rfl⟩ := Prod.mk.inj (Option.some.inj h)
          obtain ⟨hisClose, hproxyFd, -⟩ := HttpConn.new_closed hnew
          have hends : client'.ends = s.ends user := by
            rw [HttpConn.ends_of_closed hisClose, ends, huser]
            rfl
          refine ⟨setUser_registry hends, setUser_users_self, hends, ?_, rfl, rfl⟩
          rw [proxyFdOf, huser]
          exact hproxyFd

theorem extentTime_registry (cfg : ServerConfig J) (client : HttpConn J) (s : HttpServer J) :
    (s.extentTime cfg client).registry = s.registry := by
  unfold extentTime
  split
  · rfl
  · unfold registry
    congr 1
    ext d
    dsimp only
    rw [Function.update_apply]
    split
    · rename_i hd
      rw [hd]
      cases s.timer client.fd <;> rfl
    · rfl

/-! ## §2  The moves of a step -/

/-- `CloseConn(users_[user])` -/
def closeMoves (cfg : ServerConfig J) (user : Int) (s : HttpServer J) : List Move :=
  if (s.ends user).isSome then [.leaves user]
  else if cfg.isSetProxy then [.forgets (s.proxyFdOf cfg user)]
  else []

def listenMoves (isSetProxy : Bool) : Nat → List Accept → List Move
  | _, [] => []
  | userCount, a :: rest =>
      if a.fd < 0 then []
      else if userCount ≥ kMaxFd then [.turnsAway a.fd]
      else if isSetProxy then
        match a.connect with
        | .noSocket => .strands a.fd :: listenMoves isSetProxy userCount rest
        | .refused d => .strands a.fd :: .strands d :: listenMoves isSetProxy userCount rest
        | .connected p => .joins a.fd p :: listenMoves isSetProxy (userCount + 1) rest
      else .joins a.fd (-1) :: listenMoves isSetProxy (userCount + 1) rest

def reconnectMoves (p : Int) : List Connect → List Move
  | [] => []
  | .noSocket :: rest => reconnectMoves p rest
  | .refused d :: rest => .strands d :: reconnectMoves p rest
  | .connected new :: _ => [.rebinds p new]

/-- The next event is the end of this backend. -/
def backendGone (cfg : ServerConfig J) (s : HttpServer J) : Option Int :=
  match s.delivered with
  | [] => none
  | (fd, events) :: _ =>
      if events.hangsUp ∧ cfg.isSetProxy ∧ (s.proxyFdMap fd).isSome then some fd else none

/-- The task ends with `CloseConn`. -/
def TaskCloses (cfg : ServerConfig J) (w : TaskWorld) (task : Task) (s : HttpServer J) : Prop :=
  match task.kind with
  | .onRead => w.readRet ≤ 0 ∧ w.readError ≠ .eagain
  | .onWrite => task.inProxy = false ∧ ∀ found ∈ s.userAt cfg task.user,
      ¬ (WroteAll w found.1 ∧ (found.1.writeToFd w.last w.counts).2.isKeepAlive) ∧
        ¬ WouldBlock w found.1

instance (cfg : ServerConfig J) (w : TaskWorld) (task : Task) (s : HttpServer J) :
    Decidable (TaskCloses cfg w task s) := by
  obtain ⟨kind, user, inProxy⟩ := task
  cases kind <;> unfold TaskCloses WroteAll WouldBlock <;> infer_instance

/-- Whose `CloseConn` the step runs. -/
def closesConn (cfg : ServerConfig J) (s : HttpServer J) : ServerStep → Option Int
  | .handle _ =>
      match s.delivered with
      | [] => none
      | (fd, events) :: _ =>
          if events.hangsUp ∧ ¬ (cfg.isSetProxy ∧ (s.proxyFdMap fd).isSome) then some fd else none
  | .run index w =>
      match s.tasks[index]? with
      | none => none
      | some task => if TaskCloses cfg w task s then some task.user else none
  | .expire fd => (s.timer fd).map Prod.snd
  | _ => none

def moves (cfg : ServerConfig J) (s : HttpServer J) (step : ServerStep) : List Move :=
  let closing := ((s.closesConn cfg step).map fun user => s.closeMoves cfg user).getD []
  match step with
  | .listen accepts => listenMoves cfg.isSetProxy s.userCount accepts
  | .handle connects =>
      match s.backendGone cfg with
      | some p => reconnectMoves p connects
      | none => closing
  | .expire fd => closing ++ [.fires fd]
  | _ => closing

/-- `DealDisconnect` does not give up. -/
def Patient (cfg : ServerConfig J) (s : HttpServer J) : ServerStep → Prop
  | .handle connects =>
      (s.backendGone cfg).isSome → (connects.takeWhile Connect.failed).length ≤ 5
  | _ => True

instance (cfg : ServerConfig J) (s : HttpServer J) : ∀ step, Decidable (Patient cfg s step)
  | .handle _ => by unfold Patient; infer_instance
  | .listen _ | .deliver _ _ | .run _ _ | .elapse _ | .expire _ => isTrue trivial

/-- The step does these moves. -/
def Follows (cfg : ServerConfig J) (moves : List Move) (r r' : Registry) : Prop :=
  ∃ os, (WhiteWebServer.registry cfg.isSetProxy (decide (cfg.timeout ≠ 0))).exec r moves =
    some (r', os)

theorem Follows.nil (r : Registry) : Follows cfg [] r r := ⟨[], rfl⟩

theorem Follows.cons {r r₁ r' : Registry} {move : Move} {moves : List Move}
    (hstep : r.step cfg.isSetProxy (decide (cfg.timeout ≠ 0)) move = some r₁)
    (h : Follows cfg moves r₁ r') : Follows cfg (move :: moves) r r' := by
  obtain ⟨os, hexec⟩ := h
  refine ⟨() :: os, Machine.exec_cons_eq_some.mpr ⟨r₁, (), os, ?_, hexec, rfl⟩⟩
  exact Machine.map_unit_eq_some.mpr hstep

theorem Follows.snoc {r r₁ r' : Registry} {move : Move} {moves : List Move}
    (h : Follows cfg moves r r₁)
    (hstep : r₁.step cfg.isSetProxy (decide (cfg.timeout ≠ 0)) move = some r') :
    Follows cfg (moves ++ [move]) r r' := by
  obtain ⟨os, hexec⟩ := h
  refine ⟨os ++ [()], Machine.exec_snoc.mpr ⟨r₁, os, (), hexec, ?_, rfl⟩⟩
  exact Machine.map_unit_eq_some.mpr hstep

theorem Follows.eq_of_nil {r r' : Registry} (h : Follows cfg [] r r') : r' = r := by
  obtain ⟨os, hexec⟩ := h
  exact (Prod.mk.inj (Option.some.inj hexec)).1.symm

theorem Follows.uncons {r r' : Registry} {move : Move} {moves : List Move}
    (h : Follows cfg (move :: moves) r r') :
    ∃ r₁, r.step cfg.isSetProxy (decide (cfg.timeout ≠ 0)) move = some r₁ ∧
      Follows cfg moves r₁ r' := by
  obtain ⟨os, hexec⟩ := h
  obtain ⟨r₁, o, os', hstep, hrest, -⟩ := Machine.exec_cons_eq_some.mp hexec
  exact ⟨r₁, Machine.map_unit_eq_some.mp hstep, os', hrest⟩

/-- What is kept by each move of a kind is kept by all of them. -/
theorem Follows.keeps {r r' : Registry} {moves : List Move} {I : Registry → Prop}
    {P : Registry → Move → Prop}
    (hkeeps : ∀ r move r', I r → P r move →
      r.step cfg.isSetProxy (decide (cfg.timeout ≠ 0)) move = some r' → I r')
    (hI : I r) (hP : (WhiteWebServer.registry cfg.isSetProxy (decide (cfg.timeout ≠ 0))).Meets P r
      moves) (h : Follows cfg moves r r') : I r' := by
  obtain ⟨os, hexec⟩ := h
  refine Machine.exec_invariant_of_meets ?_ hI hP hexec
  intro r₁ move r₂ o hr₁ hmove hstep
  exact hkeeps r₁ move r₂ hr₁ hmove (Machine.map_unit_eq_some.mp hstep)

/-! ## §3  The parts of a step -/

theorem Closed.registry (h : Closed cfg user client s s') :
    s'.registry = s.registry.leave cfg.isSetProxy user (client.fd, client.proxyFd) := by
  obtain ⟨closed, husers, hisClose, -⟩ := h.users
  have hends : ∀ u, s'.ends u = Function.update (fun u => s.ends u) user none u := by
    intro u
    rw [ends, husers, Function.update_apply, Function.update_apply]
    split
    · exact HttpConn.ends_of_closed hisClose
    · rfl
  ext1
  case ends =>
    rw [Registry.leave_ends]
    exact funext hends
  case owner =>
    funext d
    rw [Registry.leave_owner]
    exact h.owner d
  case closings =>
    rw [Registry.leave_closings, ← ite_not]
    exact h.closings
  case proxyFdMap =>
    rw [Registry.leave_proxyFdMap]
    exact h.proxyFdMap
  case timers =>
    rw [Registry.leave_timers]
    show (fun d => (s'.timer d).map Prod.snd) = _
    rw [h.timer]
    rfl

theorem closeConn_follows (h : s.closeConn cfg user = some s') :
    Follows cfg (s.closeMoves cfg user) s.registry s'.registry := by
  cases hends : s.ends user with
  | some e =>
      obtain ⟨client, huser, hopen, rfl⟩ := ends_eq_some.mp hends
      have hclosed := closeConn_closed h huser hopen
      rw [closeMoves, hends, if_pos (by rfl)]
      refine Follows.cons ?_ (Follows.nil _)
      show (s.ends user).map _ = _
      rw [hends, hclosed.registry]
      rfl
  | none =>
      unfold closeConn at h
      obtain ⟨⟨client, s₁⟩, hat, h⟩ := Option.bind_eq_some_iff.mp h
      obtain ⟨hregistry, huser, hclient, hproxyFd, -, -⟩ := userAt_registry hat
      have hisClose : client.isClose = true := by
        cases hopen : client.isClose with
        | true => rfl
        | false =>
            rw [hends, HttpConn.ends_of_open hopen] at hclient
            cases hclient
      rw [closeMoves, hends, if_neg (by decide)]
      dsimp only at h
      unfold closeClient at h
      cases hclose : client.close cfg.js with
      | error e => simp [hclose] at h
      | ok closed =>
          simp only [hclose, hisClose, if_true, Option.some.injEq] at h
          subst h
          obtain ⟨hclosed, -⟩ := HttpConn.close_kept hclose
          have hsame : ∀ s₂ : HttpServer J, s₂.users = s₁.users →
              (s₂.setUser user closed).registry = s₂.registry := by
            intro s₂ husers
            apply setUser_registry
            rw [HttpConn.ends_of_closed hclosed, ends, husers, huser]
            exact (HttpConn.ends_of_closed hisClose).symm
          rw [← hproxyFd]
          cases hset : cfg.isSetProxy with
          | true =>
              refine Follows.cons ?_ (Follows.nil _)
              rw [if_pos rfl,
                hsame (((s₁.delFd client.fd).eraseProxy client.proxyFd).delFd client.proxyFd) rfl,
                ← hregistry]
              rfl
          | false =>
              rw [if_neg (by decide), if_neg (by decide), hsame (s₁.delFd client.fd) rfl, ← hregistry]
              exact Follows.nil _

theorem Added.registry {p : Int} (h : Added cfg fd p s s') (hfd : s.owner fd = some .server)
    (hp : if p = -1 then s.owner p = none else s.owner p = some .server)
    (hmap : s.proxyFdMap p = none) (hne : p ≠ fd) :
    s'.registry = s.registry.join (decide (cfg.timeout ≠ 0)) fd p := by
  obtain ⟨client, husers, hcfd, hcproxyFd, hopen, -⟩ := h.users
  ext1
  case ends =>
    funext u
    show s'.ends u = Function.update (fun u => s.ends u) fd (some (fd, p)) u
    rw [ends, husers, Function.update_apply, Function.update_apply]
    split
    · rw [← hcfd, ← hcproxyFd]
      exact HttpConn.ends_of_open hopen
    · rfl
  case owner =>
    funext d
    rw [Registry.join_owner, show s'.registry.owner = s'.owner from rfl, h.owner]
    simp only [give, Function.update_of_ne hne, Function.update_apply, hfd, Option.map_some]
    by_cases hneg : p = -1
    · rw [if_pos hneg] at hp
      by_cases hd : d = p
      · have hdfd : d ≠ fd := hd ▸ hne
        rw [if_pos hd, if_neg ?_, hd, hp]
        · exact hp.symm
        · exact fun hor => hor.elim hdfd fun hand => hand.2 hneg
      · simp [hd, HttpServer.registry]
    · rw [if_neg hneg] at hp
      rw [hp]
      by_cases hd : d = p <;> simp [hd, hneg, HttpServer.registry]
  case closings => exact h.closings
  case proxyFdMap =>
    show s'.proxyFdMap = if p = -1 then s.proxyFdMap else Function.update s.proxyFdMap p (some fd)
    rw [h.proxyFdMap, ite_not]
    split
    · rfl
    · simp only [emplaceProxy, hmap]
  case timers =>
    funext d
    show (s'.timer d).map Prod.snd =
      (if (decide (cfg.timeout ≠ 0)) = true then Function.update (fun d => (s.timer d).map Prod.snd) fd (some fd)
        else fun d => (s.timer d).map Prod.snd) d
    rw [h.timer, addTimer]
    by_cases htimeout : cfg.timeout = 0
    · simp [htimeout]
    · simp only [htimeout, if_false, ne_eq, not_false_eq_true, decide_true, if_true,
        Function.update_apply]
      split <;> rfl

theorem openFd_registry (fd : Int) (s : HttpServer J) :
    (s.openFd fd).registry = s.registry.opens fd := rfl

theorem fresh_of_free (hfd : ¬ fd < 0) (hfree : ¬ s.openFds fd = true) : s.registry.Fresh fd := by
  refine ⟨not_lt.mp hfd, ?_⟩
  show s.owner fd = none
  exact Option.not_isSome_iff_eq_none.mp hfree

theorem addClient_joins {addr : SockAddr} (h : Registry.Owned cfg.isSetProxy s.registry)
    (hset : ¬ cfg.isSetProxy = true) (hfresh : s.registry.Fresh fd)
    (hadd : (s.openFd fd).addClient cfg fd addr (-1) = some s') :
    s.registry.step cfg.isSetProxy (decide (cfg.timeout ≠ 0)) (.joins fd (-1)) =
      some s'.registry ∧ s'.userCount = s.userCount + 1 := by
  have hadded := addClient_added hadd
  have hopened : Registry.Owned cfg.isSetProxy (s.openFd fd).registry := h.strands hfresh
  have hne : (-1 : Int) ≠ fd := by
    have := hfresh.1
    omega
  have hunmapped : (s.openFd fd).proxyFdMap (-1) = none := by
    apply Option.eq_none_iff_forall_ne_some.mpr
    intro user hmap
    exact (h.mapped (-1) user hmap).1 rfl
  have hjoin := hadded.registry (Function.update_self ..)
    (by rw [if_pos rfl]; exact hopened.below (-1) (by decide)) hunmapped hne
  rw [openFd_registry, Registry.join_opens] at hjoin
  rw [hjoin]
  exact ⟨if_pos ⟨hfresh, by rw [if_neg hset]⟩, hadded.userCount⟩

theorem addClient_joins_backend {addr : SockAddr} {p : Int}
    (h : Registry.Owned cfg.isSetProxy s.registry) (hset : cfg.isSetProxy = true)
    (hfresh : s.registry.Fresh fd) (hp : (s.openFd fd).registry.Fresh p)
    (hadd : ((s.openFd fd).openFd p).addClient cfg fd addr p = some s') :
    s.registry.step cfg.isSetProxy (decide (cfg.timeout ≠ 0)) (.joins fd p) =
      some s'.registry ∧ s'.userCount = s.userCount + 1 := by
  have hadded := addClient_added hadd
  have hopened : Registry.Owned cfg.isSetProxy (s.openFd fd).registry := h.strands hfresh
  have hserver : (s.openFd fd).owner fd = some .server := Function.update_self ..
  have hneg : p ≠ -1 := by
    rintro rfl
    exact absurd hp.1 (by decide)
  have hne : p ≠ fd := by
    rintro rfl
    rw [show (s.openFd p).owner p = none from hp.2] at hserver
    cases hserver
  have hjoin := hadded.registry ((Function.update_of_ne hne.symm ..).trans hserver)
    (by rw [if_neg hneg]; exact Function.update_self ..) (hopened.unmapped_of_fresh hp) hne
  rw [openFd_registry, openFd_registry, Registry.join_opens_backend hneg] at hjoin
  rw [hjoin]
  refine ⟨if_pos ⟨hfresh, ?_⟩, hadded.userCount⟩
  rw [if_pos hset]
  exact ⟨⟨hp.1, (Function.update_of_ne hne ..).symm.trans hp.2⟩, hne⟩

theorem dealListen_follows : ∀ (accepts : List Accept) {s : HttpServer J},
    Registry.Owned cfg.isSetProxy s.registry → s.dealListen cfg accepts = some s' →
      Follows cfg (listenMoves cfg.isSetProxy s.userCount accepts) s.registry s'.registry := by
  intro accepts
  induction accepts with
  | nil =>
      intro s _ hlisten
      obtain rfl := Option.some.inj hlisten
      exact Follows.nil _
  | cons a rest ih =>
      intro s h hlisten
      unfold dealListen at hlisten
      unfold listenMoves
      by_cases hfd : a.fd < 0
      · rw [if_pos hfd] at hlisten ⊢
        obtain rfl := Option.some.inj hlisten
        exact Follows.nil _
      rw [if_neg hfd] at hlisten ⊢
      by_cases hfree : s.openFds a.fd = true
      · rw [if_pos hfree] at hlisten
        cases hlisten
      rw [if_neg hfree] at hlisten
      have hfresh := fresh_of_free hfd hfree
      have hopened : Registry.Owned cfg.isSetProxy (s.openFd a.fd).registry := h.strands hfresh
      dsimp only at hlisten
      by_cases hfull : s.userCount ≥ kMaxFd
      · rw [if_pos (show (s.openFd a.fd).userCount ≥ kMaxFd from hfull)] at hlisten
        rw [if_pos hfull]
        cases hlisten
        exact Follows.cons (if_pos hfresh) (Follows.nil _)
      rw [if_neg (show ¬ (s.openFd a.fd).userCount ≥ kMaxFd from hfull)] at hlisten
      rw [if_neg hfull]
      by_cases hset : cfg.isSetProxy = true
      · rw [if_pos hset] at hlisten ⊢
        obtain ⟨⟨p, s₁⟩, hget, hlisten⟩ := Option.bind_eq_some_iff.mp hlisten
        dsimp only at hlisten
        cases hconnect : a.connect with
        | noSocket =>
            rw [hconnect] at hget
            obtain ⟨rfl, rfl⟩ := Prod.mk.inj (Option.some.inj hget)
            rw [if_pos rfl] at hlisten
            exact Follows.cons (if_pos hfresh) (ih hopened hlisten)
        | refused d =>
            simp only [hconnect, getNewProxyFd, Option.ite_none_left_eq_some, not_or,
              Option.some.injEq, Prod.mk.injEq] at hget
            obtain ⟨⟨hd, hdfree⟩, rfl, rfl⟩ := hget
            have hdfresh := fresh_of_free hd hdfree
            have hboth : Registry.Owned cfg.isSetProxy ((s.openFd a.fd).openFd d).registry :=
              hopened.strands hdfresh
            rw [if_pos rfl] at hlisten
            exact Follows.cons (if_pos hfresh) (Follows.cons (if_pos hdfresh) (ih hboth hlisten))
        | connected d =>
            simp only [hconnect, getNewProxyFd, Option.ite_none_left_eq_some, not_or,
              Option.some.injEq, Prod.mk.injEq] at hget
            obtain ⟨⟨hd, hdfree⟩, rfl, rfl⟩ := hget
            have hneg : d ≠ -1 := by
              rintro rfl
              exact hd (by decide)
            rw [if_neg hneg] at hlisten
            obtain ⟨s₂, hadd, hrest⟩ := Option.bind_eq_some_iff.mp hlisten
            obtain ⟨hstep, hcount⟩ :=
              addClient_joins_backend h hset hfresh (fresh_of_free hd hdfree) hadd
            exact Follows.cons hstep (hcount ▸ ih (h.step hstep) hrest)
      · rw [if_neg hset] at hlisten ⊢
        obtain ⟨s₂, hadd, hrest⟩ := Option.bind_eq_some_iff.mp hlisten
        obtain ⟨hstep, hcount⟩ := addClient_joins h hset hfresh hadd
        exact Follows.cons hstep (hcount ▸ ih (h.step hstep) hrest)

theorem reconnect_follows {p new : Int} {e : Int × Int} {s₁ : HttpServer J} :
    ∀ (connects : List Connect) (retryCount : Nat) {s : HttpServer J},
      retryCount + (connects.takeWhile Connect.failed).length ≤ 5 →
        s.proxyFdMap p = some user → s.ends user = some e → s.owner p ≠ none →
          s.reconnect cfg p retryCount connects = some (new, s₁) →
            Follows cfg (reconnectMoves p connects) s.registry
              (s₁.registry.rebind p new user e) := by
  intro connects
  induction connects with
  | nil =>
      intro retryCount s _ _ _ _ hreconnect
      cases hreconnect
  | cons connect rest ih =>
      intro retryCount s hretries hmap he hp hreconnect
      rw [HttpServer.reconnect] at hreconnect
      obtain ⟨⟨d, s₂⟩, hget, hreconnect⟩ := Option.bind_eq_some_iff.mp hreconnect
      dsimp only at hreconnect
      cases connect with
      | noSocket =>
          rw [List.takeWhile_cons_of_pos rfl, List.length_cons] at hretries
          obtain ⟨rfl, rfl⟩ := Prod.mk.inj (Option.some.inj hget)
          rw [if_pos rfl, if_neg (by omega)] at hreconnect
          exact ih (retryCount + 1) (by omega) hmap he hp hreconnect
      | refused d' =>
          rw [List.takeWhile_cons_of_pos rfl, List.length_cons] at hretries
          simp only [getNewProxyFd, Option.ite_none_left_eq_some, not_or, Option.some.injEq,
            Prod.mk.injEq] at hget
          obtain ⟨⟨hneg, hfree⟩, rfl, rfl⟩ := hget
          rw [if_pos rfl, if_neg (by omega)] at hreconnect
          have hfresh := fresh_of_free hneg hfree
          have hne : p ≠ d' := by
            rintro rfl
            exact hp hfresh.2
          have howner : (s.openFd d').owner p ≠ none := by
            rw [show (s.openFd d').owner p = s.owner p from Function.update_of_ne hne ..]
            exact hp
          exact Follows.cons (if_pos hfresh)
            (ih (s := s.openFd d') (retryCount + 1) (by omega) hmap he howner hreconnect)
      | connected d' =>
          simp only [getNewProxyFd, Option.ite_none_left_eq_some, not_or, Option.some.injEq,
            Prod.mk.injEq] at hget
          obtain ⟨⟨hneg, hfree⟩, rfl, rfl⟩ := hget
          have hfresh := fresh_of_free hneg hfree
          have hne : d' ≠ p := by
            rintro rfl
            exact hp hfresh.2
          rw [if_neg (by omega)] at hreconnect
          obtain ⟨rfl, rfl⟩ := Prod.mk.inj (Option.some.inj hreconnect)
          refine Follows.cons ?_ (Follows.nil _)
          rw [openFd_registry, Registry.rebind_opens hne]
          show (s.proxyFdMap p).bind _ = _
          rw [hmap]
          show (s.ends user).bind _ = _
          rw [he]
          exact if_pos hfresh

theorem Reconnected.registry {p new : Int} {s₁ : HttpServer J}
    (h : Reconnected p user new client s s₁ s') (hopen : client.isClose = false)
    (hp : s.openFds p = true) :
    s'.registry = s₁.registry.rebind p new user (client.fd, client.proxyFd) := by
  have hs₁ := h.opened.same
  ext1
  case ends =>
    funext u
    show s'.ends u = Function.update (fun u => s₁.ends u) user (some (client.fd, new)) u
    rw [ends, h.users, Function.update_apply, Function.update_apply]
    split
    · exact HttpConn.ends_of_open hopen
    · rw [hs₁]
      rfl
  case owner => exact h.owner
  case closings =>
    show s'.closings = s₁.closings ++ [⟨p, .conn user, s₁.owner p⟩]
    rw [h.closings, h.opened.kept p hp, hs₁]
  case proxyFdMap =>
    show s'.proxyFdMap = Function.update (Function.update s₁.proxyFdMap p none) new (some user)
    rw [h.proxyFdMap, hs₁]
  case timers =>
    show (fun d => (s'.timer d).map Prod.snd) = fun d => (s₁.timer d).map Prod.snd
    rw [h.timer, hs₁]

theorem dealDisconnect_follows {p : Int} {connects : List Connect}
    (h : Registry.Owned cfg.isSetProxy s.registry) (hset : cfg.isSetProxy = true)
    (hmapped : (s.proxyFdMap p).isSome) (hretries : (connects.takeWhile Connect.failed).length ≤ 5)
    (hdeal : s.dealDisconnect cfg connects p = some s') :
    Follows cfg (reconnectMoves p connects) s.registry s'.registry := by
  obtain ⟨user, hmap⟩ := Option.isSome_iff_exists.mp hmapped
  obtain ⟨hneg, e, he, rfl⟩ := h.mapped p user hmap
  obtain ⟨client, huser, hopen, rfl⟩ := ends_eq_some.mp he
  have howner : s.owner client.proxyFd = some (.conn user) := h.owner_backend he hneg
  have hopened : s.openFds client.proxyFd = true := by
    rw [openFds, howner]
    rfl
  have hfree : ∀ d, s.openFds d = false → s.proxyFdMap d = none := by
    intro d hd
    apply Option.eq_none_iff_forall_ne_some.mpr
    intro user' hmap'
    obtain ⟨hneg', e', he', rfl⟩ := h.mapped d user' hmap'
    have howner' : s.owner e'.2 = some (.conn user') := h.owner_backend he' hneg'
    rw [openFds, howner'] at hd
    cases hd
  obtain ⟨new, s₁, hreconnect, hreconnected⟩ :=
    dealDisconnect_reconnected hset hmap huser hfree hopened hretries hdeal
  have hsome : s.owner client.proxyFd ≠ none := Option.ne_none_iff_exists'.mpr ⟨_, howner⟩
  rw [hreconnected.registry hopen hopened]
  exact reconnect_follows connects 0 (by omega) hmap he hsome hreconnect

theorem onProcessStatic_registry {w : TaskWorld} (hends : client.ends = s.ends user)
    (h : s.onProcessStatic cfg w user client = some s') : s'.registry = s.registry := by
  unfold onProcessStatic at h
  cases hprocess : client.process cfg.js w.fs cfg.webRoot with
  | error e => simp [hprocess] at h
  | ok result =>
      obtain ⟨result, client'⟩ := result
      have hsame := setUser_registry ((HttpConn.process_same hprocess).ends.trans hends)
      cases result <;> (simp only [hprocess, Option.some.injEq] at h; subst h; exact hsame)

theorem onProcessProxy_registry {w : TaskWorld} (hends : client.ends = s.ends user)
    (h : s.onProcessProxy cfg w user client = some s') : s'.registry = s.registry := by
  unfold onProcessProxy at h
  cases hprocess : client.processProxy cfg.js w.fs cfg.webRoot w.entries with
  | error e => simp [hprocess] at h
  | ok result =>
      obtain ⟨result, client'⟩ := result
      have hsame := setUser_registry ((HttpConn.processProxy_turn hprocess).same.ends.trans hends)
      cases result <;> (simp only [hprocess, Option.some.injEq] at h; subst h; exact hsame)

/-- The connection in hand closes like the one the server has. -/
theorem closeConn_setUser {s₁ : HttpServer J} (hat : s.userAt cfg user = some (client, s₁))
    (hsame : HttpConn.SameEnds client client')
    (h : (s₁.setUser user client').closeConn cfg user = some s') :
    Follows cfg (s.closeMoves cfg user) s.registry s'.registry := by
  obtain ⟨hregistry, -, hends, hproxyFd, -, -⟩ := userAt_registry hat
  have hset : (s₁.setUser user client').registry = s.registry := by
    rw [setUser_registry, hregistry]
    rw [hsame.ends, hends]
    exact (congrFun (congrArg Registry.ends hregistry) user).symm
  have hmoves : (s₁.setUser user client').closeMoves cfg user = s.closeMoves cfg user := by
    unfold closeMoves
    rw [show (s₁.setUser user client').ends user = s.ends user from
      congrFun (congrArg Registry.ends hset) user]
    rw [show (s₁.setUser user client').proxyFdOf cfg user = s.proxyFdOf cfg user from by
      rw [proxyFdOf, setUser_users_self, ← hproxyFd]
      exact hsame.proxyFd]
  have hfollows := closeConn_follows h
  rw [hset, hmoves] at hfollows
  exact hfollows

theorem onRead_follows {w : TaskWorld} (h : s.onRead cfg w user = some s') :
    Follows cfg (if w.readRet ≤ 0 ∧ w.readError ≠ .eagain then s.closeMoves cfg user else [])
      s.registry s'.registry := by
  unfold onRead at h
  obtain ⟨⟨client, s₁⟩, hat, h⟩ := Option.bind_eq_some_iff.mp h
  dsimp only at h
  have hsame : HttpConn.SameEnds client (client.readFromFd w.reads) := ⟨rfl, rfl, rfl⟩
  obtain ⟨hregistry, -, hends, -⟩ := userAt_registry hat
  have hends₁ : (client.readFromFd w.reads).ends = s₁.ends user := by
    rw [hsame.ends, hends]
    exact (congrFun (congrArg Registry.ends hregistry) user).symm
  split at h
  · rename_i hends
    rw [if_pos hends]
    exact closeConn_setUser hat hsame h
  · rename_i hgoes
    rw [if_neg hgoes, ← hregistry]
    split at h
    · rw [onProcessProxy_registry hends₁ h]
      exact Follows.nil _
    · rw [onProcessStatic_registry hends₁ h]
      exact Follows.nil _

theorem onWrite_follows {w : TaskWorld} {task : Task} (hkind : task.kind = .onWrite)
    (h : s.onWrite cfg w task.user task.inProxy = some s') :
    Follows cfg (if TaskCloses cfg w task s then s.closeMoves cfg task.user else [])
      s.registry s'.registry := by
  unfold onWrite at h
  obtain ⟨⟨client, s₁⟩, hat, h⟩ := Option.bind_eq_some_iff.mp h
  dsimp only at h
  have hsame : HttpConn.SameEnds client (client.writeToFd w.last w.counts).2 :=
    (HttpConn.writeLoop_same w.last w.counts 0 client).1
  obtain ⟨hregistry, -, hends, -⟩ := userAt_registry hat
  have hset : (s₁.setUser task.user (client.writeToFd w.last w.counts).2).registry =
      s.registry := by
    rw [setUser_registry, hregistry]
    rw [hsame.ends, hends]
    exact (congrFun (congrArg Registry.ends hregistry) task.user).symm
  have hquiet : ∀ {s₂ : HttpServer J}, s₂.registry = s.registry → ¬ TaskCloses cfg w task s →
      Follows cfg (if TaskCloses cfg w task s then s.closeMoves cfg task.user else [])
        s.registry s₂.registry := by
    intro s₂ hs₂ hnot
    rw [if_neg hnot, hs₂]
    exact Follows.nil _
  have hcloses : TaskCloses cfg w task s ↔ task.inProxy = false ∧
      ¬ (WroteAll w client ∧ (client.writeToFd w.last w.counts).2.isKeepAlive) ∧
        ¬ WouldBlock w client := by
    unfold TaskCloses
    rw [hkind]
    dsimp only
    rw [hat]
    simp
  unfold onWritten at h
  split at h
  · rename_i hfirst
    cases h
    refine hquiet ((extentTime_registry cfg _ _).trans hset) fun hcontra => ?_
    rw [(hcloses.mp hcontra).1] at hfirst
    exact Bool.false_ne_true hfirst.2
  split at h
  · rename_i hsecond
    cases h
    exact hquiet ((extentTime_registry cfg _ _).trans hset) fun hcontra =>
      (hcloses.mp hcontra).2.1 hsecond
  split at h
  · rename_i hthird
    cases h
    exact hquiet hset fun hcontra => (hcloses.mp hcontra).2.2 hthird
  rename_i hfirst hsecond hthird
  split at h
  · rename_i hinProxy
    cases h
    refine hquiet hset fun hcontra => ?_
    rw [(hcloses.mp hcontra).1] at hinProxy
    exact Bool.false_ne_true hinProxy
  · rename_i hinProxy
    rw [if_pos (hcloses.mpr ⟨Bool.eq_false_iff.mpr hinProxy, hsecond, hthird⟩)]
    exact closeConn_setUser hat hsame h

/-! ## §4  Runs -/

/-- The registry does not see what a task does, unless it closes the connection. -/
theorem runTask_follows {index : Nat} {w : TaskWorld} (hrun : s.runTask cfg index w = some s') :
    Follows cfg (s.moves cfg (.run index w)) s.registry s'.registry := by
  unfold runTask at hrun
  cases htask : s.tasks[index]? with
  | none => simp [htask] at hrun
  | some task =>
      simp only [htask] at hrun
      have hmoves : s.moves cfg (.run index w) =
          if TaskCloses cfg w task s then s.closeMoves cfg task.user else [] := by
        simp only [moves, closesConn, htask]
        split <;> rfl
      rw [hmoves]
      cases hkind : task.kind with
      | onRead =>
          rw [hkind] at hrun
          have hfollows := onRead_follows hrun
          have hcloses : TaskCloses cfg w task s ↔ w.readRet ≤ 0 ∧ w.readError ≠ .eagain := by
            unfold TaskCloses
            rw [hkind]
          simp only [hcloses]
          exact hfollows
      | onWrite =>
          rw [hkind] at hrun
          have hfollows := onWrite_follows hkind hrun
          have hcloses : TaskCloses cfg w task { s with tasks := s.tasks.eraseIdx index } ↔
              TaskCloses cfg w task s := by
            unfold TaskCloses userAt
            rw [hkind]
            dsimp only
            cases s.users task.user with
            | some client => simp
            | none =>
                dsimp only
                cases HttpConn.new cfg.js (cfg.junk task.user) <;> simp
          simp only [hcloses] at hfollows
          exact hfollows

theorem dealTask_registry {kind : TaskKind} (h : s.dealTask cfg kind fd = some s') :
    s'.registry = s.registry := by
  unfold dealTask at h
  dsimp only at h
  split at h
  all_goals
    obtain ⟨⟨client, s₁⟩, hat, h⟩ := Option.bind_eq_some_iff.mp h
    cases h
    exact (extentTime_registry cfg client s₁).trans (userAt_registry hat).1

theorem handle_follows {connects : List Connect}
    (h : Registry.Owned cfg.isSetProxy s.registry) (hpatient : Patient cfg s (.handle connects))
    (hhandle : s.handle cfg connects = some s') :
    Follows cfg (s.moves cfg (.handle connects)) s.registry s'.registry := by
  unfold handle at hhandle
  unfold Patient backendGone at hpatient
  cases hdelivered : s.delivered with
  | nil => simp [hdelivered] at hhandle
  | cons e rest =>
      obtain ⟨fd, events⟩ := e
      simp only [hdelivered] at hhandle hpatient
      simp only [moves, closesConn, backendGone, hdelivered]
      by_cases hhup : events.hangsUp = true
      · rw [if_pos hhup] at hhandle
        by_cases hmapped : cfg.isSetProxy ∧ (s.proxyFdMap fd).isSome
        · rw [if_pos ⟨hhup, hmapped⟩] at hpatient ⊢
          exact dealDisconnect_follows (s := { s with delivered := rest }) h hmapped.1 hmapped.2
            (hpatient rfl) hhandle
        · rw [if_neg fun hand => hmapped hand.2, if_pos ⟨hhup, hmapped⟩]
          unfold dealDisconnect at hhandle
          rw [if_neg hmapped] at hhandle
          exact closeConn_follows (s := { s with delivered := rest }) hhandle
      · rw [if_neg fun hand => hhup hand.1, if_neg fun hand => hhup hand.1]
        rw [if_neg hhup] at hhandle
        split at hhandle
        · rw [dealTask_registry hhandle]
          exact Follows.nil _
        split at hhandle
        · rw [dealTask_registry hhandle]
          exact Follows.nil _
        · cases hhandle
          exact Follows.nil _

theorem expire_follows (h : s.expire cfg fd = some s') :
    Follows cfg (s.moves cfg (.expire fd)) s.registry s'.registry := by
  unfold expire at h
  cases htimer : s.timer fd with
  | none => simp [htimer] at h
  | some entry =>
      obtain ⟨deadline, user⟩ := entry
      simp only [htimer] at h
      obtain ⟨-, h⟩ := Option.ite_none_right_eq_some.mp h
      obtain ⟨s₁, hclose, heq⟩ := Option.bind_eq_some_iff.mp h
      cases heq
      simp only [moves, closesConn, htimer, Option.map_some, Option.getD_some]
      refine (closeConn_follows hclose).snoc (congrArg some ?_)
      ext1
      case timers =>
        funext d
        show Function.update (fun d => (s₁.timer d).map Prod.snd) fd none d =
          (Function.update s₁.timer fd none d).map Prod.snd
        rw [Function.update_apply, Function.update_apply]
        split <;> rfl
      all_goals rfl

/-- Every step of a server that does not give up is its moves. -/
theorem serverStep_follows {step : ServerStep} (h : Registry.Owned cfg.isSetProxy s.registry)
    (hpatient : Patient cfg s step) (hstep : serverStep cfg s step = some s') :
    Follows cfg (s.moves cfg step) s.registry s'.registry := by
  cases step with
  | listen accepts => exact dealListen_follows accepts h hstep
  | deliver fd events =>
      have hstep : s.deliver fd events = some s' := hstep
      unfold deliver at hstep
      split at hstep
      · cases hstep
      · obtain ⟨-, heq⟩ := Option.ite_none_right_eq_some.mp hstep
        cases heq
        exact Follows.nil _
  | handle connects => exact handle_follows h hpatient hstep
  | run index w => exact runTask_follows hstep
  | elapse ms =>
      cases hstep
      exact Follows.nil _
  | expire fd => exact expire_follows hstep

/-- An invariant of the registry holds in every state of a run whose steps keep it. -/
theorem run_registry {I : Registry → Prop} {P : HttpServer J → ServerStep → Prop}
    (hinit : I .empty) (hpatient : ∀ s step, P s step → Patient cfg s step)
    (hkeeps : ∀ s step r', Registry.Owned cfg.isSetProxy s.registry → I s.registry → P s step →
      Follows cfg (s.moves cfg step) s.registry r' → I r')
    {steps : List ServerStep} {os : List Unit} (hmeets : (server cfg).Meets P new steps)
    (hrun : (server cfg).run steps = some (s, os)) :
    Registry.Owned cfg.isSetProxy s.registry ∧ I s.registry := by
  have hboth : Registry.Owned cfg.isSetProxy s.registry ∧ I s.registry := by
    apply Machine.run_invariant_of_meets (M := server cfg)
      (I := fun s : HttpServer J => Registry.Owned cfg.isSetProxy s.registry ∧ I s.registry)
      ⟨Registry.Owned.empty, hinit⟩ _ hmeets hrun
    intro s₁ step s₂ o h hmeets hstep
    have hfollows := serverStep_follows h.1 (hpatient s₁ step hmeets) (server_step.mp hstep)
    refine ⟨?_, hkeeps s₁ step s₂.registry h.1 h.2 hmeets hfollows⟩
    obtain ⟨os, hexec⟩ := hfollows
    exact Follows.keeps (P := fun _ _ => True) (fun r move r' hr _ hmove => hr.step hmove) h.1
      (Machine.meets_true _ _ _) ⟨os, hexec⟩
  exact hboth

end HttpServer

end WhiteWebServer
