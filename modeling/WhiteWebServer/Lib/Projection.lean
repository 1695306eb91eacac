import WhiteWebServer.Lib.Machine

/-!
# Projections

What a run of one machine is for another one, when a step of the first is no
step, one step or several steps of the second.

- `emitted`: the labels of the second machine that a run stands for.
- `exec_projects`: what holds of each step holds of every run; `emitted_projects` the
  same for what is seen of the steps, `meets_projects` for a side condition.
- `exec_refines`: all of it where the labels are not a function of the step.
-/

universe u v w x y z

namespace Machine

variable {σ : Type u} {α : Type v} {ω : Type w} {τ : Type x} {β : Type y} {ν : Type z}

/-- The labels that the steps of a run stand for, as far as the run goes. -/
def emitted (M : Machine σ α ω) (events : σ → α → List β) : σ → List α → List β
  | _, [] => []
  | s, l :: ls =>
      events s l ++
        match M.step s l with
        | none => []
        | some (s', _) => M.emitted events s' ls

theorem emitted_cons {M : Machine σ α ω} {events : σ → α → List β} {s s' : σ} {l : α} {o : ω}
    (h : M.step s l = some (s', o)) (ls : List α) :
    M.emitted events s (l :: ls) = events s l ++ M.emitted events s' ls := by
  rw [emitted, h]

theorem emitted_singleton {M : Machine σ α ω} {events : σ → α → List β} (s : σ) (l : α) :
    M.emitted events s [l] = events s l := by
  rw [emitted]
  split <;> exact List.append_nil _

/-- If each step that meets `P` is a run of the other machine over the labels it stands
for, then so is every run of such steps. -/
theorem exec_projects {M : Machine σ α ω} {A : Machine τ β ν} {events : σ → α → List β}
    {P : σ → α → Prop} {R : σ → τ → Prop}
    (hstep : ∀ s t l s' o, R s t → P s l → M.step s l = some (s', o) →
      ∃ t' os, A.exec t (events s l) = some (t', os) ∧ R s' t')
    {ls : List α} {s s' : σ} {t : τ} {os : List ω} (hR : R s t) (hP : M.Meets P s ls)
    (hrun : M.exec s ls = some (s', os)) :
    ∃ t' os', A.exec t (M.emitted events s ls) = some (t', os') ∧ R s' t' := by
  induction ls generalizing s t os with
  | nil =>
      simp only [exec_nil, Option.some.injEq, Prod.mk.injEq] at hrun
      obtain ⟨rfl, rfl⟩ := hrun
      exact ⟨t, [], rfl, hR⟩
  | cons l ls ih =>
      obtain ⟨s₁, o, os₁, hl, hrest, rfl⟩ := exec_cons_eq_some.mp hrun
      obtain ⟨t₁, os₂, ht₁, hR₁⟩ := hstep s t l s₁ o hR hP.1 hl
      obtain ⟨t', os₃, ht', hR'⟩ := ih hR₁ (hP.2 s₁ o hl) hrest
      refine ⟨t', os₂ ++ os₃, ?_, hR'⟩
      rw [emitted_cons hl]
      exact exec_append.mpr ⟨t₁, os₂, os₃, ht₁, ht', rfl⟩

/-- If the labels that each step stands for meet `Q`, then so do those of every run. -/
theorem meets_projects {M : Machine σ α ω} {A : Machine τ β ν} {events : σ → α → List β}
    {P : σ → α → Prop} {Q : τ → β → Prop} {R : σ → τ → Prop}
    (hstep : ∀ s t l s' o, R s t → P s l → M.step s l = some (s', o) →
      ∃ t' os, A.exec t (events s l) = some (t', os) ∧ R s' t')
    (hmeets : ∀ s t l, R s t → P s l → A.Meets Q t (events s l))
    {ls : List α} {s s' : σ} {t : τ} {os : List ω} (hR : R s t) (hP : M.Meets P s ls)
    (hrun : M.exec s ls = some (s', os)) : A.Meets Q t (M.emitted events s ls) := by
  induction ls generalizing s t os with
  | nil => trivial
  | cons l ls ih =>
      obtain ⟨s₁, o, os₁, hl, hrest, rfl⟩ := exec_cons_eq_some.mp hrun
      obtain ⟨t₁, os₂, ht₁, hR₁⟩ := hstep s t l s₁ o hR hP.1 hl
      rw [emitted_cons hl]
      refine meets_append.mpr ⟨hmeets s t l hR hP.1, fun t' os' ht' => ?_⟩
      obtain ⟨rfl, -⟩ := Prod.mk.inj (Option.some.inj (ht₁.symm.trans ht'))
      exact ih hR₁ (hP.2 s₁ o hl) hrest

theorem emitted_append {M : Machine σ α ω} {events : σ → α → List β} {ms : List α} :
    ∀ {ls : List α} {s s' : σ} {os : List ω}, M.exec s ls = some (s', os) →
      M.emitted events s (ls ++ ms) = M.emitted events s ls ++ M.emitted events s' ms
  | [], s, s', os, h => by
      simp only [exec_nil, Option.some.injEq, Prod.mk.injEq] at h
      rw [h.1]
      rfl
  | l :: ls, s, s', os, h => by
      obtain ⟨s₁, o, os₁, hl, hrest, -⟩ := exec_cons_eq_some.mp h
      rw [List.cons_append, emitted_cons hl, emitted_cons hl, emitted_append hrest,
        List.append_assoc]

theorem emitted_eq_nil {M : Machine σ α ω} {events : σ → α → List β} :
    ∀ {ls : List α} {s : σ}, (∀ l ∈ ls, ∀ t, events t l = []) → M.emitted events s ls = []
  | [], _, _ => rfl
  | l :: ls, s, h => by
      have hrest : ∀ s', M.emitted events s' ls = [] := fun s' =>
        emitted_eq_nil fun l' hl' => h l' (List.mem_cons_of_mem l hl')
      rw [emitted, h l List.mem_cons_self s, List.nil_append]
      split
      · rfl
      · exact hrest _

/-- What is seen of each step in both machines is seen of every run in both. -/
theorem emitted_projects {γ : Type x} {M : Machine σ α ω} {A : Machine τ β ν}
    {events : σ → α → List β} {P : σ → α → Prop} {R : σ → τ → Prop} {f : σ → α → List γ}
    {h : τ → β → List γ}
    (hstep : ∀ s t l s' o, R s t → P s l → M.step s l = some (s', o) →
      ∃ t' os, A.exec t (events s l) = some (t', os) ∧ R s' t')
    (hseen : ∀ s t l, R s t → f s l = A.emitted h t (events s l))
    {ls : List α} {s s' : σ} {t : τ} {os : List ω} (hR : R s t) (hP : M.Meets P s ls)
    (hrun : M.exec s ls = some (s', os)) :
    M.emitted f s ls = A.emitted h t (M.emitted events s ls) := by
  induction ls generalizing s t os with
  | nil => rfl
  | cons l ls ih =>
      obtain ⟨s₁, o, os₁, hl, hrest, rfl⟩ := exec_cons_eq_some.mp hrun
      obtain ⟨t₁, os₂, ht₁, hR₁⟩ := hstep s t l s₁ o hR hP.1 hl
      rw [emitted_cons hl, emitted_cons hl, emitted_append ht₁, hseen s t l hR,
        ih hR₁ (hP.2 s₁ o hl) hrest]

/-- Over a run to its end, what is seen of the steps alone. -/
theorem emitted_eq_flatMap {M : Machine σ α ω} {g : α → List β} :
    ∀ {ls : List α} {s s' : σ} {os : List ω}, M.exec s ls = some (s', os) →
      M.emitted (fun _ l => g l) s ls = ls.flatMap g
  | [], _, _, _, _ => rfl
  | l :: ls, s, s', os, h => by
      obtain ⟨s₁, o, os₁, hl, hrest, -⟩ := exec_cons_eq_some.mp h
      rw [emitted_cons hl, emitted_eq_flatMap hrest, List.flatMap_cons]

/-- If each step that meets `P` is some run of the other machine, whose steps meet `Q` and of
which the same is seen, then so is every run of such steps. -/
theorem exec_refines {γ : Type x} {M : Machine σ α ω} {A : Machine τ β ν} {P : σ → α → Prop}
    {Q : τ → β → Prop} {R : σ → τ → Prop} {f : σ → α → List γ} {h : τ → β → List γ}
    (hstep : ∀ s t l s' o, R s t → P s l → M.step s l = some (s', o) →
      ∃ ms t' os, A.exec t ms = some (t', os) ∧ R s' t' ∧ A.Meets Q t ms ∧
        f s l = A.emitted h t ms)
    {ls : List α} {s s' : σ} {t : τ} {os : List ω} (hR : R s t) (hP : M.Meets P s ls)
    (hrun : M.exec s ls = some (s', os)) :
    ∃ ms t' os', A.exec t ms = some (t', os') ∧ R s' t' ∧ A.Meets Q t ms ∧
      M.emitted f s ls = A.emitted h t ms := by
  induction ls generalizing s t os with
  | nil =>
      simp only [exec_nil, Option.some.injEq, Prod.mk.injEq] at hrun
      obtain ⟨rfl, rfl⟩ := hrun
      exact ⟨[], t, [], rfl, hR, trivial, rfl⟩
  | cons l ls ih =>
      obtain ⟨s₁, o, os₁, hl, hrest, rfl⟩ := exec_cons_eq_some.mp hrun
      obtain ⟨ms₁, t₁, os₂, ht₁, hR₁, hQ₁, hf₁⟩ := hstep s t l s₁ o hR hP.1 hl
      obtain ⟨ms₂, t', os₃, ht', hR', hQ₂, hf₂⟩ := ih hR₁ (hP.2 s₁ o hl) hrest
      refine ⟨ms₁ ++ ms₂, t', os₂ ++ os₃, exec_append.mpr ⟨t₁, os₂, os₃, ht₁, ht', rfl⟩, hR',
        ?_, ?_⟩
      · refine meets_append.mpr ⟨hQ₁, fun u os' hu => ?_⟩
        obtain ⟨rfl, -⟩ := Prod.mk.inj (Option.some.inj (hu.symm.trans ht₁))
        exact hQ₂
      · rw [emitted_cons hl, emitted_append ht₁, hf₁, hf₂]

end Machine
