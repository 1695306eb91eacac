import Mathlib.Data.List.Basic

/-!
# Machines: partial step functions and what holds of their runs

A machine has an initial state and a step that takes a label and either
answers (new state, output) or is impossible. Everything the development
says about "every sequence of calls" or "any order of steps" is a statement
about `Machine.run`.

- `exec_append`, `exec_snoc`: runs compose.
- `run_invariant`: what holds initially and is kept by each step holds after
  every run; `run_invariant_of_meets` is the same for runs whose steps all
  meet a side condition.
- `always_iff_meets`: where a side condition says exactly which steps keep a
  property, the runs that keep it throughout are those that meet the condition.
- `exec_simulates`: a step-wise simulation carries every run of the concrete
  machine, outputs included, over to the abstract one;
  `exec_traces_of_meets` is the same for a specification that is a relation.
-/

universe u v w x

/-- A state machine with partial, labelled, answering steps. -/
structure Machine (σ : Type u) (α : Type v) (ω : Type w) where
  init : σ
  step : σ → α → Option (σ × ω)

namespace Machine

variable {σ : Type u} {α : Type v} {ω : Type w} {τ : Type x}

/-- Perform the labels in order, collecting the answers. -/
def exec (M : Machine σ α ω) : σ → List α → Option (σ × List ω)
  | s, [] => some (s, [])
  | s, l :: ls =>
      match M.step s l with
      | none => none
      | some (s', o) => (M.exec s' ls).map fun r => (r.1, o :: r.2)

def run (M : Machine σ α ω) (ls : List α) : Option (σ × List ω) :=
  M.exec M.init ls

/-- A step that gives no answer. -/
theorem map_unit_eq_some {x : Option σ} {t : σ} {o : Unit} :
    x.map (·, ()) = some (t, o) ↔ x = some t := by
  cases x with
  | none => simp
  | some s => simp

@[simp] theorem exec_nil (M : Machine σ α ω) (s : σ) :
    M.exec s [] = some (s, []) := rfl

theorem exec_cons_eq_some {M : Machine σ α ω} {s t : σ} {l : α} {ls : List α}
    {os : List ω} :
    M.exec s (l :: ls) = some (t, os) ↔
      ∃ s' o os', M.step s l = some (s', o) ∧ M.exec s' ls = some (t, os') ∧
        os = o :: os' := by
  rw [exec]
  cases h : M.step s l with
  | none => simp
  | some r =>
      obtain ⟨s', o⟩ := r
      simp only [Option.map_eq_some_iff, Prod.mk.injEq, Option.some.injEq]
      constructor
      · rintro ⟨⟨t', os'⟩, hx, rfl, rfl⟩
        exact ⟨s', o, os', ⟨rfl, rfl⟩, hx, rfl⟩
      · rintro ⟨s'', o', os', ⟨rfl, rfl⟩, hx, rfl⟩
        exact ⟨(t, os'), hx, rfl, rfl⟩

/-- A run over `ls ++ ms` is a run over `ls` followed by one over `ms`. -/
theorem exec_append {M : Machine σ α ω} {ls ms : List α} {s u : σ} {os : List ω} :
    M.exec s (ls ++ ms) = some (u, os) ↔
      ∃ t os₁ os₂, M.exec s ls = some (t, os₁) ∧ M.exec t ms = some (u, os₂) ∧
        os = os₁ ++ os₂ := by
  induction ls generalizing s os with
  | nil => simp
  | cons l ls ih =>
      rw [List.cons_append, exec_cons_eq_some]
      constructor
      · rintro ⟨s', o, os', hstep, hrest, rfl⟩
        obtain ⟨t, os₁, os₂, h₁, h₂, rfl⟩ := ih.mp hrest
        exact ⟨t, o :: os₁, os₂, exec_cons_eq_some.mpr ⟨s', o, os₁, hstep, h₁, rfl⟩,
          h₂, rfl⟩
      · rintro ⟨t, os₁, os₂, h₁, h₂, rfl⟩
        obtain ⟨s', o, os', hstep, hrest, rfl⟩ := exec_cons_eq_some.mp h₁
        exact ⟨s', o, os' ++ os₂, hstep, ih.mpr ⟨t, os', os₂, hrest, h₂, rfl⟩, rfl⟩

theorem exec_snoc {M : Machine σ α ω} {ls : List α} {l : α} {s u : σ} {os : List ω} :
    M.exec s (ls ++ [l]) = some (u, os) ↔
      ∃ t os₁ o, M.exec s ls = some (t, os₁) ∧ M.step t l = some (u, o) ∧
        os = os₁ ++ [o] := by
  rw [exec_append]
  constructor
  · rintro ⟨t, os₁, os₂, h₁, h₂, rfl⟩
    obtain ⟨s', o, os', hstep, hnil, rfl⟩ := exec_cons_eq_some.mp h₂
    simp only [exec_nil, Option.some.injEq, Prod.mk.injEq] at hnil
    obtain ⟨rfl, rfl⟩ := hnil
    exact ⟨t, os₁, o, h₁, hstep, rfl⟩
  · rintro ⟨t, os₁, o, h₁, hstep, rfl⟩
    exact ⟨t, os₁, [o], h₁, exec_cons_eq_some.mpr ⟨u, o, [], hstep, rfl, rfl⟩, rfl⟩

/-! ## Invariants -/

/-- Every step of the run from `s` over the labels meets `P`, as far as the
run goes. -/
def Meets (M : Machine σ α ω) (P : σ → α → Prop) : σ → List α → Prop
  | _, [] => True
  | s, l :: ls => P s l ∧ ∀ s' o, M.step s l = some (s', o) → M.Meets P s' ls

/-- `Meets` is checked along the run. -/
instance decidableMeets (M : Machine σ α ω) (P : σ → α → Prop) [∀ s l, Decidable (P s l)] :
    ∀ (s : σ) (ls : List α), Decidable (M.Meets P s ls)
  | _, [] => isTrue trivial
  | s, l :: ls =>
      match h : M.step s l with
      | none => decidable_of_iff (P s l) (by simp [Meets, h])
      | some (s', o) =>
          have := decidableMeets M P s' ls
          decidable_of_iff (P s l ∧ M.Meets P s' ls) (by
            simp only [Meets, h, Option.some.injEq, Prod.mk.injEq, and_imp]
            exact and_congr_right fun _ =>
              ⟨fun hm _ _ hs _ => hs ▸ hm, fun hm => hm s' o rfl rfl⟩)

theorem Meets.mono {M : Machine σ α ω} {P Q : σ → α → Prop}
    (hPQ : ∀ s l, P s l → Q s l) :
    ∀ {ls : List α} {s : σ}, M.Meets P s ls → M.Meets Q s ls
  | [], _, _ => trivial
  | _ :: _, _, h => ⟨hPQ _ _ h.1, fun s' o hs => (h.2 s' o hs).mono hPQ⟩

theorem Meets.mono_of_mem {M : Machine σ α ω} {P Q : σ → α → Prop} :
    ∀ {ls : List α} {s : σ}, (∀ l ∈ ls, ∀ s, P s l → Q s l) → M.Meets P s ls → M.Meets Q s ls
  | [], _, _, _ => trivial
  | l :: _, s, hPQ, h => ⟨hPQ l List.mem_cons_self s h.1, fun s' o hs =>
      (h.2 s' o hs).mono_of_mem fun l' hl' => hPQ l' (List.mem_cons_of_mem l hl')⟩

theorem meets_of_forall {M : Machine σ α ω} {P : σ → α → Prop} :
    ∀ {ls : List α} {s : σ}, (∀ l ∈ ls, ∀ t, P t l) → M.Meets P s ls
  | [], _, _ => trivial
  | l :: _, s, h => ⟨h l List.mem_cons_self s,
      fun _ _ _ => meets_of_forall fun l' hl' => h l' (List.mem_cons_of_mem l hl')⟩

theorem Meets.append {M : Machine σ α ω} {P : σ → α → Prop} {ms : List α} :
    ∀ {ls : List α} {s : σ}, M.Meets P s ls → (∀ t, M.Meets P t ms) → M.Meets P s (ls ++ ms)
  | [], s, _, hms => hms s
  | _ :: _, _, hls, hms => ⟨hls.1, fun s' o hs => (hls.2 s' o hs).append hms⟩

/-- A run over `ls ++ ms` meets `P` if the run over `ls` does, and the one over `ms` behind it. -/
theorem meets_append {M : Machine σ α ω} {P : σ → α → Prop} {ms : List α} :
    ∀ {ls : List α} {s : σ}, M.Meets P s (ls ++ ms) ↔
      M.Meets P s ls ∧ ∀ t os, M.exec s ls = some (t, os) → M.Meets P t ms
  | [], s => by
      constructor
      · intro h
        refine ⟨trivial, fun t os hrun => ?_⟩
        simp only [exec_nil, Option.some.injEq, Prod.mk.injEq] at hrun
        exact hrun.1 ▸ h
      · exact fun h => h.2 s [] rfl
  | l :: ls, s => by
      constructor
      · rintro ⟨hl, hrest⟩
        refine ⟨⟨hl, fun s' o hs => (meets_append.mp (hrest s' o hs)).1⟩, fun t os hrun => ?_⟩
        obtain ⟨s', o, os', hs, hls, -⟩ := exec_cons_eq_some.mp hrun
        exact (meets_append.mp (hrest s' o hs)).2 t os' hls
      · rintro ⟨⟨hl, hls⟩, hms⟩
        refine ⟨hl, fun s' o hs => meets_append.mpr ⟨hls s' o hs, fun t os hrun => ?_⟩⟩
        exact hms t (o :: os) (exec_cons_eq_some.mpr ⟨s', o, os, hs, hrun, rfl⟩)

/-- A step of a run that meets `P` is taken in a state that does. -/
theorem Meets.step {M : Machine σ α ω} {P : σ → α → Prop} {l : α} {ms : List α} :
    ∀ {ls : List α} {s t : σ} {os : List ω}, M.Meets P s (ls ++ l :: ms) →
      M.exec s ls = some (t, os) → P t l
  | [], s, t, os, h, hrun => by
      simp only [exec_nil, Option.some.injEq, Prod.mk.injEq] at hrun
      exact hrun.1 ▸ h.1
  | _ :: ls, s, t, os, h, hrun => by
      obtain ⟨s', o, os', hl, hrest, -⟩ := exec_cons_eq_some.mp hrun
      exact (h.2 s' o hl).step hrest

/-- What each step that meets `P` preserves, a run of such steps preserves. -/
theorem exec_invariant_of_meets {M : Machine σ α ω} {P : σ → α → Prop} {I : σ → Prop}
    (hstep : ∀ s l s' o, I s → P s l → M.step s l = some (s', o) → I s')
    {ls : List α} {s t : σ} {os : List ω} (hs : I s) (hP : M.Meets P s ls)
    (hrun : M.exec s ls = some (t, os)) : I t := by
  induction ls generalizing s os with
  | nil =>
      simp only [exec_nil, Option.some.injEq, Prod.mk.injEq] at hrun
      exact hrun.1 ▸ hs
  | cons l ls ih =>
      obtain ⟨s', o, os', hl, hrest, -⟩ := exec_cons_eq_some.mp hrun
      exact ih (hstep s l s' o hs hP.1 hl) (hP.2 s' o hl) hrest

theorem run_invariant_of_meets {M : Machine σ α ω} {P : σ → α → Prop} {I : σ → Prop}
    (hinit : I M.init)
    (hstep : ∀ s l s' o, I s → P s l → M.step s l = some (s', o) → I s')
    {ls : List α} {t : σ} {os : List ω} (hP : M.Meets P M.init ls)
    (hrun : M.run ls = some (t, os)) : I t :=
  exec_invariant_of_meets hstep hinit hP hrun

/-- If under `I` every step that meets `P` is possible and keeps `I`, then so is
every run of such steps. -/
theorem exec_total_of_meets {M : Machine σ α ω} {P : σ → α → Prop} {I : σ → Prop}
    (hstep : ∀ s l, I s → P s l → ∃ s' o, M.step s l = some (s', o) ∧ I s')
    {ls : List α} {s : σ} (hs : I s) (hP : M.Meets P s ls) :
    ∃ t os, M.exec s ls = some (t, os) ∧ I t := by
  induction ls generalizing s with
  | nil => exact ⟨s, [], rfl, hs⟩
  | cons l ls ih =>
      obtain ⟨s', o, hl, hs'⟩ := hstep s l hs hP.1
      obtain ⟨t, os, hrun, ht⟩ := ih hs' (hP.2 s' o hl)
      exact ⟨t, o :: os, exec_cons_eq_some.mpr ⟨s', o, os, hl, hrun, rfl⟩, ht⟩

theorem run_total_of_meets {M : Machine σ α ω} {P : σ → α → Prop} {I : σ → Prop}
    (hinit : I M.init)
    (hstep : ∀ s l, I s → P s l → ∃ s' o, M.step s l = some (s', o) ∧ I s')
    {ls : List α} (hP : M.Meets P M.init ls) : ∃ t os, M.run ls = some (t, os) ∧ I t :=
  exec_total_of_meets hstep hinit hP

theorem meets_true (M : Machine σ α ω) : ∀ (ls : List α) (s : σ),
    M.Meets (fun _ _ => True) s ls
  | [], _ => trivial
  | _ :: ls, _ => ⟨trivial, fun s' _ _ => M.meets_true ls s'⟩

/-- What holds initially and is kept by every step holds after every run. -/
theorem run_invariant {M : Machine σ α ω} {I : σ → Prop} (hinit : I M.init)
    (hstep : ∀ s l s' o, I s → M.step s l = some (s', o) → I s')
    {ls : List α} {t : σ} {os : List ω} (hrun : M.run ls = some (t, os)) : I t :=
  run_invariant_of_meets (P := fun _ _ => True) hinit
    (fun s l s' o hs _ h => hstep s l s' o hs h) (M.meets_true ls M.init) hrun

/-! ## What holds behind every step -/

/-- Every step of the run is possible, and `I` holds before the first and behind each. -/
def Always (M : Machine σ α ω) (I : σ → Prop) (s : σ) (ls : List α) : Prop :=
  ∀ before, before <+: ls → ∃ t os, M.exec s before = some (t, os) ∧ I t

theorem always_nil {M : Machine σ α ω} {I : σ → Prop} {s : σ} : M.Always I s [] ↔ I s := by
  constructor
  · intro h
    obtain ⟨t, os, hrun, ht⟩ := h [] List.prefix_rfl
    simp only [exec_nil, Option.some.injEq, Prod.mk.injEq] at hrun
    exact hrun.1 ▸ ht
  · intro hs before hbefore
    rw [List.prefix_nil.mp hbefore]
    exact ⟨s, [], rfl, hs⟩

theorem always_cons {M : Machine σ α ω} {I : σ → Prop} {s : σ} {l : α} {ls : List α} :
    M.Always I s (l :: ls) ↔ I s ∧ ∃ s' o, M.step s l = some (s', o) ∧ M.Always I s' ls := by
  constructor
  · intro h
    refine ⟨always_nil.mp fun before hbefore => h before (hbefore.trans List.nil_prefix), ?_⟩
    obtain ⟨t, os, hrun, -⟩ := h [l] (List.prefix_append [l] ls)
    obtain ⟨s', o, -, hstep, -, -⟩ := exec_cons_eq_some.mp hrun
    refine ⟨s', o, hstep, fun before hbefore => ?_⟩
    obtain ⟨t, os, hrun, ht⟩ := h (l :: before) (List.cons_prefix_cons.mpr ⟨rfl, hbefore⟩)
    obtain ⟨s'', o', os', hstep', hrest, -⟩ := exec_cons_eq_some.mp hrun
    obtain ⟨rfl, -⟩ := Prod.mk.inj (Option.some.inj (hstep'.symm.trans hstep))
    exact ⟨t, os', hrest, ht⟩
  · rintro ⟨hs, s', o, hstep, hrest⟩ before hbefore
    rcases before with _ | ⟨l', before⟩
    · exact ⟨s, [], rfl, hs⟩
    · obtain ⟨rfl, hprefix⟩ := List.cons_prefix_cons.mp hbefore
      obtain ⟨t, os, hrun, ht⟩ := hrest before hprefix
      exact ⟨t, o :: os, exec_cons_eq_some.mpr ⟨s', o, os, hstep, hrun, rfl⟩, ht⟩

/-- Where `P` says, under `J`, which of the steps in `D` are possible and keep `I`, the runs of
steps in `D` that keep `I` throughout are those of steps that meet `P`. -/
theorem always_iff_meets {M : Machine σ α ω} {D P : σ → α → Prop} {I J : σ → Prop}
    (hkeeps : ∀ s l s' o, J s → D s l → M.step s l = some (s', o) → J s')
    (hstep : ∀ s l, J s → I s → D s l →
      ((∃ s' o, M.step s l = some (s', o) ∧ I s') ↔ P s l))
    {ls : List α} {s : σ} (hJ : J s) (hI : I s) (hD : M.Meets D s ls) :
    M.Always I s ls ↔ M.Meets P s ls := by
  induction ls generalizing s with
  | nil => exact ⟨fun _ => trivial, fun _ => always_nil.mpr hI⟩
  | cons l ls ih =>
      have hone := hstep s l hJ hI hD.1
      rw [always_cons]
      constructor
      · rintro ⟨-, s', o, hl, hrest⟩
        have hI' : I s' := always_nil.mp fun before hbefore =>
          hrest before (hbefore.trans List.nil_prefix)
        refine ⟨hone.mp ⟨s', o, hl, hI'⟩, fun s'' o' hl' => ?_⟩
        obtain ⟨rfl, -⟩ := Prod.mk.inj (Option.some.inj (hl.symm.trans hl'))
        exact (ih (hkeeps s l s' o hJ hD.1 hl) hI' (hD.2 s' o hl)).mp hrest
      · rintro ⟨hP, hrest⟩
        obtain ⟨s', o, hl, hI'⟩ := hone.mpr hP
        exact ⟨hI, s', o, hl,
          (ih (hkeeps s l s' o hJ hD.1 hl) hI' (hD.2 s' o hl)).mpr (hrest s' o hl)⟩

/-! ## Simulation -/

/-- A step-wise simulation carries whole runs over, answers included. -/
theorem exec_simulates {M : Machine σ α ω} {A : Machine τ α ω} {R : σ → τ → Prop}
    (hstep : ∀ s a l s' o, R s a → M.step s l = some (s', o) →
      ∃ a', A.step a l = some (a', o) ∧ R s' a')
    {ls : List α} {s s' : σ} {a : τ} {os : List ω} (hR : R s a)
    (hrun : M.exec s ls = some (s', os)) :
    ∃ a', A.exec a ls = some (a', os) ∧ R s' a' := by
  induction ls generalizing s a os with
  | nil =>
      simp only [exec_nil, Option.some.injEq, Prod.mk.injEq] at hrun
      obtain ⟨rfl, rfl⟩ := hrun
      exact ⟨a, rfl, hR⟩
  | cons l ls ih =>
      obtain ⟨t, o, os', hl, hrest, rfl⟩ := exec_cons_eq_some.mp hrun
      obtain ⟨b, hb, hRb⟩ := hstep s a l t o hR hl
      obtain ⟨a', ha', hRa'⟩ := ih hRb hrest
      exact ⟨a', exec_cons_eq_some.mpr ⟨b, o, os', hb, ha', rfl⟩, hRa'⟩

theorem run_simulates {M : Machine σ α ω} {A : Machine τ α ω} {R : σ → τ → Prop}
    (hinit : R M.init A.init)
    (hstep : ∀ s a l s' o, R s a → M.step s l = some (s', o) →
      ∃ a', A.step a l = some (a', o) ∧ R s' a')
    {ls : List α} {s' : σ} {os : List ω} (hrun : M.run ls = some (s', os)) :
    ∃ a', A.run ls = some (a', os) ∧ R s' a' :=
  exec_simulates hstep hinit hrun

/-! ## Traces of a specification

A specification that leaves something open is a relation between a state, a
label, the answer and the next state.
-/

/-- The labels with these answers lead from one state to the other. -/
inductive Traces (R : τ → α → ω → τ → Prop) : τ → List α → List ω → τ → Prop
  | nil (a : τ) : Traces R a [] [] a
  | cons {a b c : τ} {l : α} {o : ω} {ls : List α} {os : List ω} :
      R a l o b → Traces R b ls os c → Traces R a (l :: ls) (o :: os) c

/-- If under `Rel` every step that meets `P` is possible and refines `R`, then so is
and does every run of such steps. -/
theorem exec_traces_of_meets {M : Machine σ α ω} {P : σ → α → Prop}
    {R : τ → α → ω → τ → Prop} {Rel : σ → τ → Prop}
    (hstep : ∀ s a l, Rel s a → P s l →
      ∃ s' o a', M.step s l = some (s', o) ∧ R a l o a' ∧ Rel s' a')
    {ls : List α} {s : σ} {a : τ} (hs : Rel s a) (hP : M.Meets P s ls) :
    ∃ t os b, M.exec s ls = some (t, os) ∧ Traces R a ls os b ∧ Rel t b := by
  induction ls generalizing s a with
  | nil => exact ⟨s, [], a, rfl, Traces.nil a, hs⟩
  | cons l ls ih =>
      obtain ⟨s', o, a', hl, hR, hs'⟩ := hstep s a l hs hP.1
      obtain ⟨t, os, b, hrun, htr, ht⟩ := ih hs' (hP.2 s' o hl)
      exact ⟨t, o :: os, b, exec_cons_eq_some.mpr ⟨s', o, os, hl, hrun, rfl⟩,
        Traces.cons hR htr, ht⟩

end Machine
