import Mathlib.Data.List.Induction

/-!
# Lexical normal forms of paths

A path is a walk of segments: stay, one level up, or into a name. Its normal form is
what is left when every name with a parent segment behind it is cancelled: levels up,
which a rooted path has none of, and then names.

- `walk_eq`: a walk from anywhere takes away as many names as its own normal form
  goes up, and puts its names behind them.
- `under_walk`: a walk that does not climb stays under where it starts;
  `not_under_walk`: a walk that climbs leaves a directory it does not name.
-/

universe u

namespace LexicalPath

/-- A segment of a path. -/
inductive Segment (α : Type u)
  | self
  | parent
  | name (a : α)
  deriving DecidableEq

/-- A normal form: levels up, and then names. -/
@[ext]
structure Normal (α : Type u) where
  ups : Nat
  names : List α
  deriving DecidableEq

variable {α : Type u}

def Normal.step (rooted : Bool) (n : Normal α) : Segment α → Normal α
  | .self => n
  | .name a => { n with names := n.names ++ [a] }
  | .parent =>
      if n.names = [] then { n with ups := if rooted then n.ups else n.ups + 1 }
      else { n with names := n.names.dropLast }

/-- The normal form behind a walk. -/
def walk (rooted : Bool) (start : Normal α) (segments : List (Segment α)) : Normal α :=
  segments.foldl (Normal.step rooted) start

def canonical (rooted : Bool) (segments : List (Segment α)) : Normal α :=
  walk rooted { ups := 0, names := [] } segments

/-- `n` is `root` or below it. -/
def Normal.Under (n root : Normal α) : Prop := n.ups = root.ups ∧ root.names <+: n.names

instance [DecidableEq α] (n root : Normal α) : Decidable (n.Under root) := by
  unfold Normal.Under
  infer_instance

/-- The walk goes above where it starts. -/
def Climbs (segments : List (Segment α)) : Prop := 0 < (canonical false segments).ups

instance (segments : List (Segment α)) : Decidable (Climbs segments) := by
  unfold Climbs
  infer_instance

theorem walk_append (rooted : Bool) (start : Normal α) (p r : List (Segment α)) :
    walk rooted start (p ++ r) = walk rooted (walk rooted start p) r := List.foldl_append ..

theorem walk_snoc (rooted : Bool) (start : Normal α) (p : List (Segment α)) (s : Segment α) :
    walk rooted start (p ++ [s]) = (walk rooted start p).step rooted s := by
  rw [walk_append]
  rfl

/-- The normal form `own` walked from `start`. -/
def Normal.after (rooted : Bool) (start own : Normal α) : Normal α where
  ups := start.ups + if rooted then 0 else own.ups - start.names.length
  names := start.names.take (start.names.length - own.ups) ++ own.names

theorem Normal.after_step (rooted : Bool) (start own : Normal α) (s : Segment α) :
    (Normal.after rooted start own).step rooted s =
      Normal.after rooted start (own.step false s) := by
  cases s with
  | self => rfl
  | name a => simp [Normal.step, Normal.after]
  | parent =>
      by_cases hown : own.names = []
      · by_cases hlen : start.names.length ≤ own.ups
        · -- above `start`: one more level up
          have htake : start.names.length - own.ups = 0 := Nat.sub_eq_zero_of_le hlen
          have htake' : start.names.length - (own.ups + 1) = 0 := by omega
          have hups : own.ups + 1 - start.names.length = own.ups - start.names.length + 1 := by
            omega
          cases rooted <;> simp [Normal.step, Normal.after, hown, htake, htake', hups, Nat.add_assoc]
        · -- inside `start`: its last name goes
          have htake : start.names.length - own.ups = start.names.length - (own.ups + 1) + 1 := by
            omega
          have hups : own.ups - start.names.length = 0 := by omega
          have hups' : own.ups + 1 - start.names.length = 0 := by omega
          have hne : start.names.take (start.names.length - own.ups) ≠ [] := by
            intro hnil
            have hzero := congrArg List.length hnil
            rw [List.length_take, List.length_nil] at hzero
            omega
          have hdrop : (start.names.take (start.names.length - own.ups)).dropLast =
              start.names.take (start.names.length - (own.ups + 1)) := by
            rw [List.dropLast_eq_take, List.length_take, List.take_take]
            congr 1
            omega
          simp only [Normal.step, Normal.after, hown, List.append_nil, if_neg hne, if_true, hdrop,
            Bool.false_eq_true, if_false, hups, hups']
      · have hne : start.names.take (start.names.length - own.ups) ++ own.names ≠ [] :=
          List.append_ne_nil_of_right_ne_nil _ hown
        simp only [Normal.step, Normal.after, if_neg hown, if_neg hne,
          List.dropLast_append_of_ne_nil hown]

/-- A walk from anywhere, by its own normal form. -/
theorem walk_eq (rooted : Bool) (start : Normal α) (segments : List (Segment α)) :
    walk rooted start segments = Normal.after rooted start (canonical false segments) := by
  induction segments using List.reverseRecOn with
  | nil => simp [walk, canonical, Normal.after]
  | append_singleton p s ih => rw [walk_snoc, ih, Normal.after_step, canonical, canonical, walk_snoc]

/-- A walk that does not climb stays under where it starts. -/
theorem under_walk (rooted : Bool) (start : Normal α) {segments : List (Segment α)}
    (h : ¬ Climbs segments) : (walk rooted start segments).Under start := by
  have hups : (canonical false segments).ups = 0 := Nat.eq_zero_of_not_pos h
  rw [walk_eq]
  refine ⟨?_, ?_⟩
  · cases rooted <;> simp [Normal.after, hups]
  · simp [Normal.after, hups]

theorem names_subset (rooted : Bool) (segments : List (Segment α)) :
    ∀ a ∈ (canonical rooted segments).names, Segment.name a ∈ segments := by
  induction segments using List.reverseRecOn with
  | nil => simp [canonical, walk]
  | append_singleton p s ih =>
      intro a ha
      rw [canonical, walk_snoc] at ha
      change a ∈ ((canonical rooted p).step rooted s).names at ha
      rw [List.mem_append, List.mem_singleton]
      cases s with
      | self => exact Or.inl (ih a ha)
      | name b =>
          rcases List.mem_append.mp ha with ha | ha
          · exact Or.inl (ih a ha)
          · exact Or.inr (by rw [List.mem_singleton.mp ha])
      | parent =>
          unfold Normal.step at ha
          dsimp only at ha
          split at ha
          · exact Or.inl (ih a ha)
          · exact Or.inl (ih a ((List.dropLast_sublist _).subset ha))

/-- A walk that climbs leaves a directory it does not name. -/
theorem not_under_walk {segments : List (Segment α)} (h : Climbs segments) {a : α}
    (ha : Segment.name a ∉ segments) :
    ¬ (walk true { ups := 0, names := [a] } segments).Under { ups := 0, names := [a] } := by
  rintro ⟨-, hnames⟩
  rw [walk_eq] at hnames
  have htake : ([a] : List α).length - (canonical false segments).ups = 0 := by
    rw [List.length_singleton]
    exact Nat.sub_eq_zero_of_le h
  simp only [Normal.after, htake, List.take_zero, List.nil_append] at hnames
  exact ha (names_subset false segments a (hnames.subset List.mem_cons_self))

/-- A walk over names only does not climb. -/
theorem not_climbs_of_no_parent {segments : List (Segment α)} (h : Segment.parent ∉ segments) :
    ¬ Climbs segments := by
  have hups : (canonical false segments).ups = 0 := by
    induction segments using List.reverseRecOn with
    | nil => rfl
    | append_singleton p s ih =>
        rw [List.mem_append, not_or, List.mem_singleton] at h
        rw [canonical, walk_snoc]
        change ((canonical false p).step false s).ups = 0
        cases s with
        | self => exact ih h.1
        | name a => exact ih h.1
        | parent => exact absurd rfl h.2
  exact fun hclimbs => absurd hups (Nat.pos_iff_ne_zero.mp hclimbs)

theorem ups_append (p r : List (Segment α)) : (canonical false (p ++ r)).ups =
    (canonical false p).ups + ((canonical false r).ups - (canonical false p).names.length) := by
  rw [canonical, walk_append, walk_eq]
  rfl

theorem Climbs.append {p : List (Segment α)} (h : Climbs p) (r : List (Segment α)) :
    Climbs (p ++ r) := by
  rw [Climbs, ups_append]
  exact Nat.add_pos_left h _

theorem not_climbs_append {p r : List (Segment α)} (hp : ¬ Climbs p) (hr : ¬ Climbs r) :
    ¬ Climbs (p ++ r) := by
  rw [Climbs, ups_append, Nat.eq_zero_of_not_pos hp, Nat.eq_zero_of_not_pos hr]
  simp

end LexicalPath
