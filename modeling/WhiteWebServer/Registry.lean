import WhiteWebServer.HttpServer

/-!
# The registry of descriptors

What a server is to keep of its descriptors, without connections that read and write:
which connections are open and on which two descriptors, whose each open descriptor is,
the map from backend descriptors, the timers, and every `close` so far. A `Move` is what
one handler does to it. §1 the moves; §2 what every move keeps; §3 what only some keep.
-/

namespace WhiteWebServer

@[ext]
structure Registry where
  /-- `fd_` and `proxy_fd_` of a connection that is open -/
  ends : Int → Option (Int × Int)
  owner : Int → Option Owner
  closings : List Closing
  proxyFdMap : Int → Option Int
  /-- the connection a timer closes -/
  timers : Int → Option Int

inductive Move
  /-- a client is accepted and closed -/
  | turnsAway (fd : Int)
  /-- a descriptor is opened and not handed over -/
  | strands (fd : Int)
  | joins (fd proxyFd : Int)
  | leaves (user : Int)
  /-- an entry of the map is erased, without a connection that leaves -/
  | forgets (proxyFd : Int)
  | rebinds (proxyFd newProxyFd : Int)
  /-- a timer is removed -/
  | fires (fd : Int)
  deriving DecidableEq

namespace Registry

/-! ## §1  Moves -/

def empty : Registry :=
  { ends := fun _ => none, owner := fun _ => none, closings := [], proxyFdMap := fun _ => none,
    timers := fun _ => none }

/-- The kernel may return the descriptor. -/
def Fresh (r : Registry) (d : Int) : Prop := 0 ≤ d ∧ r.owner d = none

instance (r : Registry) (d : Int) : Decidable (r.Fresh d) := by
  unfold Fresh
  infer_instance

def opens (d : Int) (r : Registry) : Registry :=
  { r with owner := Function.update r.owner d (some .server) }

def closes (closer : Owner) (d : Int) (r : Registry) : Registry :=
  { r with owner := Function.update r.owner d none,
           closings := r.closings ++ [{ fd := d, closer := closer, owner := r.owner d }] }

def erases (p : Int) (r : Registry) : Registry :=
  { r with proxyFdMap := Function.update r.proxyFdMap p none }

def join (timed : Bool) (fd p : Int) (r : Registry) : Registry :=
  { r with
    ends := Function.update r.ends fd (some (fd, p))
    owner := if p = -1 then Function.update r.owner fd (some (.conn fd))
      else Function.update (Function.update r.owner fd (some (.conn fd))) p (some (.conn fd))
    proxyFdMap := if p = -1 then r.proxyFdMap else Function.update r.proxyFdMap p (some fd)
    timers := if timed then Function.update r.timers fd (some fd) else r.timers }

def leave (proxied : Bool) (user : Int) (e : Int × Int) (r : Registry) : Registry :=
  let r := { r with ends := Function.update r.ends user none }
  let r := if proxied then r.erases e.2 else r
  let r := r.closes (.conn user) e.1
  if e.2 = -1 then r else r.closes (.conn user) e.2

def rebind (p new user : Int) (e : Int × Int) (r : Registry) : Registry :=
  let r := r.closes (.conn user) p
  { r with
    ends := Function.update r.ends user (some (e.1, new))
    owner := Function.update r.owner new (some (.conn user))
    proxyFdMap := Function.update (Function.update r.proxyFdMap p none) new (some user) }

def step (proxied timed : Bool) (r : Registry) : Move → Option Registry
  | .turnsAway fd => if r.Fresh fd then some ((r.opens fd).closes .server fd) else none
  | .strands fd => if r.Fresh fd then some (r.opens fd) else none
  | .joins fd p =>
      if r.Fresh fd ∧ if proxied then r.Fresh p ∧ p ≠ fd else p = -1 then some (r.join timed fd p)
      else none
  | .leaves user => (r.ends user).map fun e => r.leave proxied user e
  | .forgets p => some (r.erases p)
  | .rebinds p new => do
      let user ← r.proxyFdMap p
      let e ← r.ends user
      if r.Fresh new then some (r.rebind p new user e) else none
  | .fires fd => some { r with timers := Function.update r.timers fd none }

end Registry

/-- The registry over any moves. -/
def registry (proxied timed : Bool) : Machine Registry Move Unit where
  init := .empty
  step r move := (r.step proxied timed move).map (·, ())

namespace Registry

variable {proxied timed : Bool} {r r' : Registry} {d fd p new user : Int} {e : Int × Int}

theorem opens_owner : (r.opens fd).owner d = if d = fd then some .server else r.owner d :=
  Function.update_apply ..

theorem erases_proxyFdMap : (r.erases p).proxyFdMap = Function.update r.proxyFdMap p none := rfl

/-- What a move needs and does. -/
inductive Moved (proxied timed : Bool) (r : Registry) : Move → Registry → Prop
  | turnsAway {fd : Int} (hfresh : r.Fresh fd) :
      Moved proxied timed r (.turnsAway fd) ((r.opens fd).closes .server fd)
  | strands {fd : Int} (hfresh : r.Fresh fd) : Moved proxied timed r (.strands fd) (r.opens fd)
  | joins {fd p : Int} (hfd : r.Fresh fd) (hp : if proxied then r.Fresh p ∧ p ≠ fd else p = -1) :
      Moved proxied timed r (.joins fd p) (r.join timed fd p)
  | leaves {user : Int} {e : Int × Int} (he : r.ends user = some e) :
      Moved proxied timed r (.leaves user) (r.leave proxied user e)
  | forgets {p : Int} : Moved proxied timed r (.forgets p) (r.erases p)
  | rebinds {p new user : Int} {e : Int × Int} (hmap : r.proxyFdMap p = some user)
      (he : r.ends user = some e) (hnew : r.Fresh new) :
      Moved proxied timed r (.rebinds p new) (r.rebind p new user e)
  | fires {fd : Int} : Moved proxied timed r (.fires fd)
      { r with timers := Function.update r.timers fd none }

theorem step_moved {move : Move} (hstep : r.step proxied timed move = some r') :
    Moved proxied timed r move r' := by
  cases move with
  | turnsAway fd =>
      obtain ⟨hfresh, heq⟩ := Option.ite_none_right_eq_some.mp hstep
      cases heq
      exact Moved.turnsAway hfresh
  | strands fd =>
      obtain ⟨hfresh, heq⟩ := Option.ite_none_right_eq_some.mp hstep
      cases heq
      exact Moved.strands hfresh
  | joins fd p =>
      obtain ⟨⟨hfd, hp⟩, heq⟩ := Option.ite_none_right_eq_some.mp hstep
      cases heq
      exact Moved.joins hfd hp
  | leaves user =>
      obtain ⟨e, he, rfl⟩ := Option.map_eq_some_iff.mp hstep
      exact Moved.leaves he
  | forgets p =>
      cases hstep
      exact Moved.forgets
  | rebinds p new =>
      obtain ⟨user, hmap, hstep⟩ := Option.bind_eq_some_iff.mp hstep
      obtain ⟨e, he, hstep⟩ := Option.bind_eq_some_iff.mp hstep
      obtain ⟨hnew, heq⟩ := Option.ite_none_right_eq_some.mp hstep
      cases heq
      exact Moved.rebinds hmap he hnew
  | fires fd =>
      cases hstep
      exact Moved.fires

theorem leave_ends : (r.leave proxied user e).ends = Function.update r.ends user none := by
  unfold leave
  cases proxied <;> dsimp only <;> split <;> rfl

theorem leave_owner : (r.leave proxied user e).owner d =
    if d = e.1 ∨ (d = e.2 ∧ e.2 ≠ -1) then none else r.owner d := by
  unfold leave
  by_cases he : e.2 = -1 <;> by_cases h₁ : d = e.1 <;> by_cases h₂ : d = e.2 <;>
    cases proxied <;> simp [closes, erases, Function.update_apply, he, h₁, h₂]

theorem leave_closings : (r.leave proxied user e).closings =
    r.closings ++ ⟨e.1, .conn user, r.owner e.1⟩ :: if e.2 = -1 then []
      else [⟨e.2, .conn user, Function.update r.owner e.1 none e.2⟩] := by
  unfold leave
  by_cases he : e.2 = -1 <;> cases proxied <;> simp [closes, erases, he]

theorem leave_proxyFdMap : (r.leave proxied user e).proxyFdMap =
    if proxied then Function.update r.proxyFdMap e.2 none else r.proxyFdMap := by
  unfold leave
  cases proxied <;> dsimp only <;> split <;> rfl

theorem leave_timers : (r.leave proxied user e).timers = r.timers := by
  unfold leave
  cases proxied <;> dsimp only <;> split <;> rfl

theorem join_owner : (r.join timed fd p).owner d =
    if d = fd ∨ (d = p ∧ p ≠ -1) then some (.conn fd) else r.owner d := by
  unfold join
  by_cases hp : p = -1 <;> by_cases h₁ : d = fd <;> by_cases h₂ : d = p <;>
    simp [Function.update_apply, hp, h₁, h₂]

/-- What was opened just before is handed over. -/
theorem join_opens : (r.opens fd).join timed fd p = r.join timed fd p := by
  ext1
  case owner =>
    ext d
    rw [join_owner, join_owner, opens_owner]
    split
    · rfl
    · rename_i hd
      rw [if_neg fun heq => hd (Or.inl heq)]
  all_goals rfl

theorem join_opens_backend (hp : p ≠ -1) :
    ((r.opens fd).opens p).join timed fd p = r.join timed fd p := by
  rw [← join_opens (r := r)]
  ext1
  case owner =>
    ext d
    rw [join_owner, join_owner, opens_owner]
    split
    · rfl
    · rename_i hd
      rw [if_neg fun heq => hd (Or.inr ⟨heq, hp⟩)]
  all_goals rfl

theorem rebind_opens (hne : new ≠ p) :
    (r.opens new).rebind p new user e = r.rebind p new user e := by
  have hp : (r.opens new).owner p = r.owner p := Function.update_of_ne hne.symm ..
  ext1
  case owner =>
    ext d
    simp only [rebind, closes, Function.update_apply, opens_owner]
    split
    · rfl
    · split <;> rfl
  case closings =>
    simp only [rebind, closes, hp]
    rfl
  all_goals rfl

/-! ## §2  What every move keeps -/

/-- The connection is open on the descriptor. -/
def Has (r : Registry) (user d : Int) : Prop :=
  ∃ e, r.ends user = some e ∧ (d = e.1 ∨ (d = e.2 ∧ e.2 ≠ -1))

/-- A connection is filed under its descriptor and owns what it is open on, and the map
knows only backends of such connections. -/
structure Owned (proxied : Bool) (r : Registry) : Prop where
  filed : ∀ user e, r.ends user = some e →
    e.1 = user ∧ e.2 ≠ user ∧ (e.2 ≠ -1 ↔ proxied = true)
  owner : ∀ d user, r.owner d = some (.conn user) ↔ r.Has user d
  below : ∀ d < 0, r.owner d = none
  mapped : ∀ p user, r.proxyFdMap p = some user →
    p ≠ -1 ∧ ∃ e, r.ends user = some e ∧ e.2 = p

theorem Owned.empty : Owned proxied .empty where
  filed _ _ h := nomatch h
  owner _ _ := iff_of_false (fun h => nomatch h) fun ⟨_, h, _⟩ => nomatch h
  below _ _ := rfl
  mapped _ _ h := nomatch h

theorem Owned.owner_fd (h : Owned proxied r) (he : r.ends user = some e) :
    r.owner e.1 = some (.conn user) :=
  (h.owner e.1 user).mpr ⟨e, he, Or.inl rfl⟩

theorem Owned.owner_backend (h : Owned proxied r) (he : r.ends user = some e) (hp : e.2 ≠ -1) :
    r.owner e.2 = some (.conn user) :=
  (h.owner e.2 user).mpr ⟨e, he, Or.inr ⟨rfl, hp⟩⟩

/-- A descriptor the kernel may return names no connection. -/
theorem Owned.ends_of_fresh (h : Owned proxied r) (hfresh : r.Fresh d) : r.ends d = none := by
  cases he : r.ends d with
  | none => rfl
  | some e =>
      have howner := h.owner_fd he
      rw [(h.filed d e he).1, hfresh.2] at howner
      cases howner

/-- It is no key of the map either. -/
theorem Owned.unmapped_of_fresh (h : Owned proxied r) (hfresh : r.Fresh d) :
    r.proxyFdMap d = none := by
  cases hmap : r.proxyFdMap d with
  | none => rfl
  | some user =>
      obtain ⟨hd, e, he, rfl⟩ := h.mapped d user hmap
      have howner := h.owner_backend he hd
      rw [hfresh.2] at howner
      cases howner

/-- A descriptor is open for one connection only. -/
theorem Owned.unique (h : Owned proxied r) {user' : Int} (hd : r.Has user d)
    (hd' : r.Has user' d) : user = user' := by
  have howner := (h.owner d user).mpr hd
  rw [(h.owner d user').mpr hd'] at howner
  cases howner
  rfl

theorem Owned.turnsAway (h : Owned proxied r) (hfresh : r.Fresh fd) :
    Owned proxied ((r.opens fd).closes .server fd) := by
  have howner : ((r.opens fd).closes .server fd).owner = r.owner := by
    show Function.update (Function.update r.owner fd _) fd none = r.owner
    rw [Function.update_idem, ← hfresh.2, Function.update_eq_self]
  constructor
  case filed => exact h.filed
  case owner =>
    intro d user
    rw [howner]
    exact h.owner d user
  case below =>
    intro d hd
    rw [howner]
    exact h.below d hd
  case mapped => exact h.mapped

theorem Owned.strands (h : Owned proxied r) (hfresh : r.Fresh fd) : Owned proxied (r.opens fd) := by
  constructor
  case filed => exact h.filed
  case owner =>
    intro d user
    refine Iff.trans ?_ (h.owner d user)
    rw [opens_owner]
    split
    · rename_i hd
      rw [hd, hfresh.2]
      exact iff_of_false (fun h => nomatch h) fun h => nomatch h
    · rfl
  case below =>
    intro d hd
    have hne : d ≠ fd := by
      rintro rfl
      exact absurd hfresh.1 (by omega)
    rw [opens_owner, if_neg hne]
    exact h.below d hd
  case mapped => exact h.mapped

theorem Owned.joins (h : Owned proxied r) (hfd : r.Fresh fd)
    (hp : if proxied then r.Fresh p ∧ p ≠ fd else p = -1) : Owned proxied (r.join timed fd p) := by
  have hnone := h.ends_of_fresh hfd
  have hother : ∀ {u : Int} {e : Int × Int}, r.ends u = some e → u ≠ fd := by
    rintro u e he rfl
    rw [hnone] at he
    cases he
  have hends : (r.join timed fd p).ends = Function.update r.ends fd (some (fd, p)) := rfl
  have hbackend : p ≠ -1 ↔ proxied = true := by
    cases proxied with
    | true =>
        refine iff_of_true ?_ rfl
        rintro rfl
        exact absurd hp.1.1 (by omega)
    | false => exact iff_of_false (fun hne => hne hp) (by decide)
  have hpfd : p ≠ fd := by
    cases proxied with
    | true => exact hp.2
    | false =>
        rintro rfl
        have := hfd.1
        simp only [Bool.false_eq_true, if_false] at hp
        omega
  have hfree : p ≠ -1 → r.owner p = none := by
    intro hne
    rw [hbackend.mp hne] at hp
    exact hp.1.2
  constructor
  case filed =>
    intro u e he
    rw [hends, Function.update_apply] at he
    split at he
    · cases he
      rename_i hu
      exact ⟨hu.symm, hu ▸ hpfd, hbackend⟩
    · exact h.filed u e he
  case owner =>
    intro d u
    rw [join_owner, Has, hends]
    by_cases hu : u = fd
    · subst hu
      rw [Function.update_self]
      split
      · rename_i hd
        exact iff_of_true rfl ⟨_, rfl, hd⟩
      · rename_i hd
        refine iff_of_false (fun howner => ?_) ?_
        · obtain ⟨e, he, -⟩ := (h.owner d u).mp howner
          exact hother he rfl
        · rintro ⟨e, he, hends⟩
          cases he
          exact hd hends
    · rw [Function.update_of_ne hu, ← Has, ← h.owner d u]
      split
      · rename_i hd
        refine iff_of_false (fun howner => ?_) fun howner => ?_
        · cases howner
          exact hu rfl
        · rcases hd with rfl | ⟨rfl, hne⟩
          · rw [hfd.2] at howner
            cases howner
          · rw [hfree hne] at howner
            cases howner
      · rfl
  case below =>
    intro d hd
    rw [join_owner, if_neg ?_]
    · exact h.below d hd
    · rintro (rfl | ⟨rfl, hne⟩)
      · exact absurd hfd.1 (by omega)
      · rw [hbackend.mp hne] at hp
        exact absurd hp.1.1 (by omega)
  case mapped =>
    intro q u hmap
    have hkeep : r.proxyFdMap q = some u → q ≠ -1 ∧
        ∃ e, (r.join timed fd p).ends u = some e ∧ e.2 = q := by
      intro hmap
      obtain ⟨hq, e, he, heq⟩ := h.mapped q u hmap
      exact ⟨hq, e, by rw [hends, Function.update_of_ne (hother he)]; exact he, heq⟩
    simp only [join] at hmap
    split at hmap
    · exact hkeep hmap
    · rename_i hne
      rw [Function.update_apply] at hmap
      split at hmap
      · cases hmap
        rename_i hq
        exact ⟨hq ▸ hne, (fd, p), by rw [hends, Function.update_self], hq.symm⟩
      · exact hkeep hmap

theorem Owned.leaves (h : Owned proxied r) (he : r.ends user = some e) :
    Owned proxied (r.leave proxied user e) := by
  have hends := @leave_ends proxied r user e
  constructor
  case filed =>
    intro u e' he'
    rw [hends, Function.update_apply] at he'
    split at he'
    · cases he'
    · exact h.filed u e' he'
  case owner =>
    intro d u
    rw [leave_owner, Has, hends]
    by_cases hu : u = user
    · subst hu
      rw [Function.update_self]
      refine iff_of_false ?_ (fun ⟨_, hnone, _⟩ => nomatch hnone)
      split
      · exact fun hnone => nomatch hnone
      · rename_i hd
        intro howner
        obtain ⟨e', he', hd'⟩ := (h.owner d u).mp howner
        rw [he] at he'
        cases he'
        exact hd hd'
    · rw [Function.update_of_ne hu, ← Has, ← h.owner d u]
      split
      · rename_i hd
        refine iff_of_false (fun hnone => nomatch hnone) fun howner => ?_
        exact hu (h.unique ((h.owner d u).mp howner) ⟨e, he, hd⟩)
      · rfl
  case below =>
    intro d hd
    rw [leave_owner]
    split
    · rfl
    · exact h.below d hd
  case mapped =>
    intro q u hmap
    have hkept : r.proxyFdMap q = some u ∧ (proxied = true → q ≠ e.2) := by
      rw [leave_proxyFdMap] at hmap
      cases proxied with
      | true =>
          rw [if_pos rfl, Function.update_apply] at hmap
          split at hmap
          · cases hmap
          · rename_i hq
            exact ⟨hmap, fun _ => hq⟩
      | false => exact ⟨hmap, fun hand => nomatch hand⟩
    obtain ⟨hq, e', he', heq⟩ := h.mapped q u hkept.1
    have hu : u ≠ user := by
      rintro rfl
      rw [he] at he'
      cases he'
      exact hkept.2 ((h.filed u e he).2.2.mp (heq ▸ hq)) heq.symm
    exact ⟨hq, e', by rw [hends, Function.update_of_ne hu]; exact he', heq⟩

theorem Owned.forgets (h : Owned proxied r) (p : Int) : Owned proxied (r.erases p) := by
  constructor
  case filed => exact h.filed
  case owner => exact h.owner
  case below => exact h.below
  case mapped =>
    intro q u hmap
    rw [erases_proxyFdMap, Function.update_apply] at hmap
    split at hmap
    · cases hmap
    · exact h.mapped q u hmap

theorem Owned.rebinds (h : Owned proxied r) (hmap : r.proxyFdMap p = some user)
    (he : r.ends user = some e) (hnew : r.Fresh new) : Owned proxied (r.rebind p new user e) := by
  obtain ⟨hp, e', he', rfl⟩ := h.mapped p user hmap
  rw [he] at he'
  cases he'
  obtain ⟨hself, hapart, hproxied⟩ := h.filed user e he
  have hnewp : new ≠ e.2 := by
    rintro rfl
    have howner := h.owner_backend he hp
    rw [hnew.2] at howner
    cases howner
  have hnewuser : new ≠ user := by
    rintro rfl
    have howner := h.owner_fd he
    rw [hself, hnew.2] at howner
    cases howner
  have hneg : new ≠ -1 := by
    rintro rfl
    exact absurd hnew.1 (by omega)
  have hends : (r.rebind e.2 new user e).ends = Function.update r.ends user (some (e.1, new)) := rfl
  have howner : ∀ d, (r.rebind e.2 new user e).owner d =
      if d = new then some (.conn user) else if d = e.2 then none else r.owner d := by
    intro d
    simp only [rebind, closes, Function.update_apply]
  constructor
  case filed =>
    intro u e' he'
    rw [hends, Function.update_apply] at he'
    split at he'
    · cases he'
      rename_i hu
      exact ⟨hu ▸ hself, hu ▸ hnewuser, iff_of_true hneg (hproxied.mp hp)⟩
    · exact h.filed u e' he'
  case owner =>
    intro d u
    rw [howner, Has, hends]
    by_cases hu : u = user
    · subst hu
      rw [Function.update_self]
      by_cases hd : d = new
      · rw [if_pos hd]
        exact iff_of_true rfl ⟨_, rfl, Or.inr ⟨hd, hneg⟩⟩
      · rw [if_neg hd]
        have hright : (∃ e', some (e.1, new) = some e' ∧ (d = e'.1 ∨ (d = e'.2 ∧ e'.2 ≠ -1))) ↔
            d = e.1 := by
          constructor
          · rintro ⟨e', he', hd'⟩
            cases he'
            exact hd'.resolve_right fun hand => hd hand.1
          · exact fun hd' => ⟨_, rfl, Or.inl hd'⟩
        rw [hright]
        split
        · rename_i hde
          exact iff_of_false (fun hnone => nomatch hnone) fun hd' => hapart (hde ▸ hd' ▸ hself)
        · rename_i hde
          rw [h.owner d u]
          constructor
          · rintro ⟨e', he', hd'⟩
            rw [he] at he'
            cases he'
            exact hd'.resolve_right fun hand => hde hand.1
          · exact fun hd' => ⟨e, he, Or.inl hd'⟩
    · rw [Function.update_of_ne hu, ← Has, ← h.owner d u]
      by_cases hd : d = new
      · rw [if_pos hd, hd, hnew.2]
        exact iff_of_false (fun hcontra => hu (by cases hcontra; rfl)) (fun hnone => nomatch hnone)
      · rw [if_neg hd]
        split
        · rename_i hde
          refine iff_of_false (fun hnone => nomatch hnone) fun hcontra => ?_
          rw [hde, h.owner_backend he hp] at hcontra
          cases hcontra
          exact hu rfl
        · rfl
  case below =>
    intro d hd
    have hne : d ≠ new := by
      rintro rfl
      exact absurd hnew.1 (by omega)
    rw [howner, if_neg hne]
    split
    · rfl
    · exact h.below d hd
  case mapped =>
    intro q u hq
    simp only [rebind, closes, Function.update_apply] at hq
    split at hq
    · cases hq
      rename_i hqnew
      exact ⟨hqnew ▸ hneg, (e.1, new), by rw [hends, Function.update_self], hqnew.symm⟩
    · split at hq
      · cases hq
      · rename_i hqp
        obtain ⟨hneg', e', he', heq⟩ := h.mapped q u hq
        have hu : u ≠ user := by
          rintro rfl
          rw [he] at he'
          cases he'
          exact hqp heq.symm
        exact ⟨hneg', e', by rw [hends, Function.update_of_ne hu]; exact he', heq⟩

theorem Owned.step {move : Move} (h : Owned proxied r)
    (hstep : r.step proxied timed move = some r') : Owned proxied r' := by
  cases step_moved hstep with
  | turnsAway hfresh => exact h.turnsAway hfresh
  | strands hfresh => exact h.strands hfresh
  | joins hfd hp => exact h.joins hfd hp
  | leaves he => exact h.leaves he
  | forgets => exact h.forgets _
  | rebinds hmap he hnew => exact h.rebinds hmap he hnew
  | fires => exact ⟨h.filed, h.owner, h.below, h.mapped⟩

/-! ## §3  What some moves keep -/

/-- The map knows every backend. -/
def Mapped (r : Registry) : Prop :=
  ∀ user e, r.ends user = some e → e.2 ≠ -1 → r.proxyFdMap e.2 = some user

/-- There is nothing to erase behind a connection that is not open. -/
def ForgetsNothing (r : Registry) : Move → Prop
  | .forgets p => r.proxyFdMap p = none
  | _ => True

theorem Mapped.step {move : Move} (hmapped : r.Mapped) (h : Owned proxied r)
    (hforgets : r.ForgetsNothing move) (hstep : r.step proxied timed move = some r') :
    r'.Mapped := by
  cases step_moved hstep with
  | turnsAway hfresh => exact hmapped
  | strands hfresh => exact hmapped
  | @joins fd p hfd hp =>
      intro u e he hne
      rw [show (r.join timed fd p).ends = Function.update r.ends fd (some (fd, p)) from rfl,
        Function.update_apply] at he
      simp only [join]
      split at he
      · cases he
        rename_i hu
        rw [if_neg hne, Function.update_self, hu]
      · split
        · exact hmapped u e he hne
        · -- another connection's backend is open, what the kernel returned was not
          have hep : e.2 ≠ p := by
            rintro rfl
            rw [((h.filed u e he).2.2.mp hne)] at hp
            have howner := h.owner_backend he hne
            rw [hp.1.2] at howner
            cases howner
          rw [Function.update_of_ne hep]
          exact hmapped u e he hne
  | @leaves user e he =>
      intro u e' he' hne
      rw [leave_ends, Function.update_apply] at he'
      split at he'
      · cases he'
      · rename_i hu
        have hep : e'.2 ≠ e.2 := by
          intro heq
          exact hu (h.unique ⟨e', he', Or.inr ⟨rfl, hne⟩⟩ ⟨e, he, Or.inr ⟨heq, heq ▸ hne⟩⟩)
        rw [leave_proxyFdMap]
        split
        · rw [Function.update_of_ne hep]
          exact hmapped u e' he' hne
        · exact hmapped u e' he' hne
  | @forgets p =>
      intro u e he hne
      have hkept := hmapped u e he hne
      have hep : e.2 ≠ p := by
        rintro rfl
        rw [hforgets] at hkept
        cases hkept
      rw [erases_proxyFdMap, Function.update_of_ne hep]
      exact hkept
  | @rebinds p new user e hmap he hnew =>
      intro u e' he' hne
      simp only [rebind, closes, Function.update_apply] at he' ⊢
      split at he'
      · cases he'
        rename_i hu
        rw [if_pos rfl, hu]
      · rename_i hu
        have hkept := hmapped u e' he' hne
        have hnewne : e'.2 ≠ new := by
          rintro rfl
          have howner := h.owner_backend he' hne
          rw [hnew.2] at howner
          cases howner
        have hpne : e'.2 ≠ p := by
          rintro rfl
          rw [hmap] at hkept
          cases hkept
          exact hu rfl
        rw [if_neg hnewne, if_neg hpne]
        exact hkept
  | fires => exact hmapped

/-- The timers are those of the connections that are open. -/
def Timed (r : Registry) : Prop := ∀ d, r.timers d = (r.ends d).map fun _ => d

/-- No connection leaves, and no timer is removed. -/
def Stays : Move → Prop
  | .leaves _ | .fires _ => False
  | _ => True

theorem Timed.step {move : Move} (h : r.Timed) (hstays : Stays move)
    (hstep : r.step proxied true move = some r') : r'.Timed := by
  cases step_moved hstep with
  | turnsAway hfresh => exact h
  | strands hfresh => exact h
  | @joins fd p hfd hp =>
      intro d
      simp only [join, if_true, Function.update_apply]
      split
      · rename_i hd
        rw [hd]
        rfl
      · exact h d
  | leaves he => exact hstays.elim
  | forgets => exact h
  | @rebinds p new user e hmap he hnew =>
      intro d
      simp only [rebind, closes, Function.update_apply]
      rw [h d]
      split
      · rename_i hd
        rw [hd, he]
        rfl
      · rfl
  | fires => exact hstays.elim

/-- A connection leaves because of its timer. -/
theorem Timed.leaves (h : r.Timed) :
    Timed { r.leave proxied user e with
      timers := Function.update (r.leave proxied user e).timers user none } := by
  intro d
  simp only [leave_timers, leave_ends, Function.update_apply]
  split
  · rfl
  · exact h d

/-- Every open descriptor is handed over, and nothing was closed for another. -/
structure Clean (r : Registry) : Prop where
  given : ∀ d, r.owner d ≠ some .server
  closings : ∀ c ∈ r.closings, c.owner = some c.closer

def Hands : Move → Prop
  | .strands _ => False
  | _ => True

theorem Clean.step {move : Move} (h : r.Clean) (hown : Owned proxied r) (hhands : Hands move)
    (hstep : r.step proxied timed move = some r') : r'.Clean := by
  cases step_moved hstep with
  | turnsAway hfresh =>
      constructor
      case given =>
        intro d
        simp only [closes, opens, Function.update_apply]
        split
        · exact fun hnone => nomatch hnone
        · exact h.given d
      case closings =>
        intro c hc
        rcases List.mem_append.mp hc with hc | hc
        · exact h.closings c hc
        · rw [List.mem_singleton.mp hc]
          exact Function.update_self ..
  | strands hfresh => exact hhands.elim
  | @joins fd p hfd hp =>
      constructor
      case given =>
        intro d
        rw [join_owner]
        split
        · exact fun hcontra => nomatch hcontra
        · exact h.given d
      case closings => exact h.closings
  | @leaves user e he =>
      constructor
      case given =>
        intro d
        rw [leave_owner]
        split
        · exact fun hnone => nomatch hnone
        · exact h.given d
      case closings =>
        intro c hc
        rw [leave_closings] at hc
        rcases List.mem_append.mp hc with hc | hc
        · exact h.closings c hc
        rcases List.mem_cons.mp hc with rfl | hc
        · exact hown.owner_fd he
        · split at hc
          · cases hc
          · rename_i hp
            rw [List.mem_singleton.mp hc]
            obtain ⟨hself, hapart, -⟩ := hown.filed user e he
            show Function.update r.owner e.1 none e.2 = _
            rw [Function.update_of_ne (hself.symm ▸ hapart)]
            exact hown.owner_backend he hp
  | forgets => exact ⟨h.given, h.closings⟩
  | @rebinds p new user e hmap he hnew =>
      obtain ⟨hp, e', he', rfl⟩ := hown.mapped p user hmap
      rw [he] at he'
      cases he'
      constructor
      case given =>
        intro d
        simp only [rebind, closes, Function.update_apply]
        split
        · exact fun hcontra => nomatch hcontra
        · split
          · exact fun hnone => nomatch hnone
          · exact h.given d
      case closings =>
        intro c hc
        rcases List.mem_append.mp hc with hc | hc
        · exact h.closings c hc
        · rw [List.mem_singleton.mp hc]
          exact hown.owner_backend he hp
  | fires => exact ⟨h.given, h.closings⟩

end Registry

end WhiteWebServer
