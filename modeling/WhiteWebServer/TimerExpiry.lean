import WhiteWebServer.HeapTimer

/-!
# Expiry

`Tick` looks only at the root. The heap order that makes this right is kept by
calls whose new deadline is not below the root's, except at the root itself:
`PercolateUp` ends below the root. At one clock reading `Tick` then takes
exactly the nodes that have expired, in the order of their deadlines, and
`NextTickTime` the least time that is left.
-/

namespace WhiteWebServer

open HeapOrder HeapTimer

variable {C : Type}

/-- Exactly the expired nodes are gone, each run once, by increasing deadline. -/
def ExpiresExactly (env : TimerEnv) (t : HeapTimer C) (fired : List C) (t' : HeapTimer C) : Prop :=
  ∃ nodes : List (TimerNode C), fired = nodes.map TimerNode.cb ∧
    nodes.Perm (t.heap.filter fun node => node.remaining env ≤ 0) ∧
    nodes.Pairwise (fun a b => a.expires ≤ b.expires) ∧
    t'.heap.Perm (t.heap.filter fun node => ¬ node.remaining env ≤ 0)

/-- The milliseconds to the next deadline, or -1 when there is none. -/
def IsLeastWait (env : TimerEnv) (t : HeapTimer C) (wait : Int) : Prop :=
  (wait = -1 ↔ t.heap = []) ∧
    (t.heap ≠ [] → (∃ node ∈ t.heap, wait = node.remaining env) ∧
      ∀ node ∈ t.heap, wait ≤ node.remaining env)

namespace HeapTimer

/-- The new deadline of a node that is not the root is not below the root's. -/
def BelowRoot (t : HeapTimer C) : TimerCall C → Prop
  | .addTimer env fd timeout _ =>
      t.fdHeapMap fd = some 0 ∨ t.heap = [] ∨ t.key 0 ≤ deadline env timeout
  | .adjustTimer env fd timeout => t.indexOf fd = 0 ∨ t.key 0 ≤ deadline env timeout
  | _ => True

instance (t : HeapTimer C) : ∀ call, Decidable (t.BelowRoot call)
  | .addTimer env fd timeout _ =>
      decidable_of_iff
        (t.fdHeapMap fd = some 0 ∨ t.heap.isEmpty ∨ t.key 0 ≤ deadline env timeout)
        (by simp [BelowRoot])
  | .adjustTimer _ _ _ => inferInstanceAs (Decidable (_ ∨ _))
  | .doRightNow _ _ => isTrue trivial
  | .tick _ => isTrue trivial
  | .nextTickTime _ _ => isTrue trivial
  | .clear => isTrue trivial

def KeepsOrder (t : HeapTimer C) (call : TimerCall C) : Prop :=
  t.StaysInside call ∧ t.BelowRoot call

instance (t : HeapTimer C) (call : TimerCall C) : Decidable (t.KeepsOrder call) :=
  inferInstanceAs (Decidable (_ ∧ _))

/-! ## The heap is kept -/

theorem new_isHeap : (new : HeapTimer C).IsHeap := by
  intro i _ hn
  exact absurd hn (Nat.not_lt_zero i)

theorem Ticks.isHeap {envs : Nat → TimerEnv} {turn : Nat} {t t' : HeapTimer C}
    {nodes : List (TimerNode C)} (hticks : Ticks envs turn t nodes t') (ho : t.IsHeap) :
    t'.IsHeap := by
  induction hticks with
  | stop _ => exact ho
  | fire _ _ hdeleted _ ih => exact ih (hdeleted.heap ho)

theorem Does.isHeap {t t' : HeapTimer C} {call : TimerCall C} {answer : TimerAnswer C}
    (hdoes : t.Does call answer t') (hroot : t.BelowRoot call) (ho : t.IsHeap) : t'.IsHeap := by
  cases call with
  | addTimer env fd timeout cb =>
      rcases hdoes.2 with ⟨index, hi, hmap, hrewritten⟩ | ⟨hmap, hpushed⟩
      · apply hrewritten.heap ho
        intro hpos
        rcases hroot with hzero | hnil | hle
        · rw [hmap] at hzero
          exact absurd (Option.some.inj hzero) (ne_of_gt hpos)
        · rw [hnil] at hi
          exact absurd hi (Nat.not_lt_zero index)
        · exact hle
      · apply hpushed.heap ho
        intro hne
        rcases hroot with hzero | hnil | hle
        · rw [hmap] at hzero
          cases hzero
        · exact absurd hnil hne
        · exact hle
  | adjustTimer env fd timeout =>
      obtain ⟨-, hi, hrewritten⟩ := hdoes
      apply hrewritten.heap ho
      intro hpos
      rcases hroot with hzero | hle
      · exact absurd hzero (ne_of_gt hpos)
      · exact hle
  | doRightNow env fd =>
      rcases hdoes with ⟨index, hi, -, -, hdeleted⟩ | ⟨-, -, rfl⟩
      · exact hdeleted.heap ho
      · exact ho
  | tick envs =>
      obtain ⟨nodes, -, hticks⟩ := hdoes
      exact hticks.isHeap ho
  | nextTickTime envs env =>
      obtain ⟨nodes, -, hticks⟩ := hdoes
      exact hticks.isHeap ho
  | clear =>
      obtain ⟨-, rfl⟩ := hdoes
      exact new_isHeap

/-- A call that keeps the order is made and does. -/
theorem timerStep_isHeap {t : HeapTimer C} (ho : t.IsHeap) (call : TimerCall C)
    (hcall : t.KeepsOrder call) :
    ∃ t' answer, timerStep t call = some (t', answer) ∧ t'.IsHeap := by
  obtain ⟨t', answer, hstep, hdoes⟩ := timerStep_does call hcall.1
  exact ⟨t', answer, hstep, hdoes.isHeap hcall.2 ho⟩

/-! ## What `Tick` takes -/

theorem remaining_mono {a b : TimerNode C} (env : TimerEnv) (h : a.expires ≤ b.expires) :
    a.remaining env ≤ b.remaining env :=
  Int.tdiv_le_tdiv (by decide) (Int.sub_le_sub_right h _)

/-- The root has the least deadline. -/
theorem root_le_of_mem {t : HeapTimer C} (ho : t.IsHeap) {root node : TimerNode C}
    (hroot : t.heap.head? = some root) (hnode : node ∈ t.heap) : root.expires ≤ node.expires := by
  obtain ⟨i, hi, rfl⟩ := List.mem_iff_getElem.mp hnode
  have hle := ho.root_le i hi
  rw [List.head?_eq_getElem?] at hroot
  rwa [key_of_get hroot, key_of_get (List.getElem?_eq_getElem hi)] at hle

/-- At one clock reading the turns take the expired nodes, in order, and leave the
others. -/
theorem Ticks.exact {env : TimerEnv} {turn : Nat} {t t' : HeapTimer C}
    {nodes : List (TimerNode C)} (hticks : Ticks (fun _ => env) turn t nodes t')
    (ho : t.IsHeap) :
    t.heap.Perm (nodes ++ t'.heap) ∧ nodes.Pairwise (fun a b => a.expires ≤ b.expires) ∧
      (∀ node ∈ nodes, node.remaining env ≤ 0) ∧ ∀ node ∈ t'.heap, ¬ node.remaining env ≤ 0 := by
  induction hticks with
  | @stop _ t hstop =>
      refine ⟨List.Perm.refl _, List.Pairwise.nil, ?_, ?_⟩
      · intro node hmem
        cases hmem
      · intro node hmem
        cases hhead : t.heap.head? with
        | none =>
            rw [List.head?_eq_none_iff.mp hhead] at hmem
            cases hmem
        | some root =>
            apply not_le.mpr
            exact lt_of_lt_of_le (hstop root hhead)
              (remaining_mono env (root_le_of_mem ho hhead hmem))
  | @fire _ t t₁ t' node nodes hhead hexpired hdeleted _ ih =>
      obtain ⟨hperm, hsorted, hgone, hleft⟩ := ih (hdeleted.heap ho)
      refine ⟨?_, ?_, ?_, hleft⟩
      · exact hdeleted.perm.trans (hperm.cons node)
      · apply List.Pairwise.cons _ hsorted
        intro node' hmem
        apply root_le_of_mem ho hhead
        apply hdeleted.perm.symm.subset
        exact List.mem_cons_of_mem _ (hperm.symm.subset (List.mem_append_left _ hmem))
      · intro node' hmem
        rcases List.mem_cons.mp hmem with rfl | hmem
        · exact hexpired
        · exact hgone node' hmem

theorem Ticks.expiresExactly {env : TimerEnv} {t t' : HeapTimer C}
    {nodes : List (TimerNode C)} (hticks : Ticks (fun _ => env) 0 t nodes t') (ho : t.IsHeap) :
    ExpiresExactly env t (nodes.map TimerNode.cb) t' := by
  obtain ⟨hperm, hsorted, hgone, hleft⟩ := hticks.exact ho
  refine ⟨nodes, rfl, ?_, hsorted, ?_⟩
  · have hall : nodes.filter (fun node => node.remaining env ≤ 0) = nodes :=
      List.filter_eq_self.mpr fun node hmem => decide_eq_true (hgone node hmem)
    have hnone : t'.heap.filter (fun node => node.remaining env ≤ 0) = [] :=
      List.filter_eq_nil_iff.mpr fun node hmem => by simpa using hleft node hmem
    have hfilter := hperm.filter fun node => decide (node.remaining env ≤ 0)
    rw [List.filter_append, hall, hnone, List.append_nil] at hfilter
    exact hfilter.symm
  · have hnone : nodes.filter (fun node => ¬ node.remaining env ≤ 0) = [] :=
      List.filter_eq_nil_iff.mpr fun node hmem => by simpa using hgone node hmem
    have hall : t'.heap.filter (fun node => ¬ node.remaining env ≤ 0) = t'.heap :=
      List.filter_eq_self.mpr fun node hmem => decide_eq_true (hleft node hmem)
    have hfilter := hperm.filter fun node => decide (¬ node.remaining env ≤ 0)
    rw [List.filter_append, hall, hnone, List.nil_append] at hfilter
    exact hfilter.symm

/-- Where nothing has expired, `NextTickTime` changes nothing and returns the least
time that is left. -/
theorem nextTickTime_least {env : TimerEnv} {t : HeapTimer C} (ho : t.IsHeap)
    (hleft : ∀ node ∈ t.heap, ¬ node.remaining env ≤ 0) :
    ∃ wait, t.nextTickTime (fun _ => env) env = .ok (t, [], wait) ∧ IsLeastWait env t wait := by
  refine ⟨t.timeLeft env, ?_, ?_⟩
  · have htick : t.tick (fun _ => env) = .ok (t, []) := by
      cases hheap : t.heap with
      | nil => rw [tick, hheap, List.length_nil, tickLoop]
      | cons root rest =>
          have hroot : 0 < root.remaining env :=
            not_le.mp (hleft root (by rw [hheap]; exact List.mem_cons_self))
          simp only [tick, hheap, List.length_cons, tickLoop, if_pos hroot]
    simp only [nextTickTime, htick, bind, Except.bind]
    rfl
  · cases hheap : t.heap with
    | nil => exact ⟨by simp [timeLeft, hheap], fun hne => absurd hheap hne⟩
    | cons root rest =>
        have hmem : root ∈ t.heap := by
          rw [hheap]
          exact List.mem_cons_self
        have hroot : 0 < root.remaining env := not_le.mp (hleft root hmem)
        have hwait : t.timeLeft env = root.remaining env := by
          simp only [timeLeft, hheap, if_pos hroot]
        rw [hwait]
        constructor
        · constructor
          · intro hneg
            omega
          · intro hnil
            rw [hheap] at hnil
            cases hnil
        · intro _
          refine ⟨⟨root, hmem, rfl⟩, ?_⟩
          intro node hnode
          exact remaining_mono env (root_le_of_mem ho (by rw [hheap]; rfl) hnode)

/-- **Expiry is exact.** After every sequence of calls that keep the order none has
faulted, and at any clock reading `Tick` runs and removes exactly the expired nodes,
by increasing deadline; `NextTickTime` then returns the least time that is left. -/
theorem expiry_exact {calls : List (TimerCall C)}
    (horder : (timer C).Meets KeepsOrder new calls) :
    ∃ t answers, (timer C).run calls = some (t, answers) ∧
      ∀ env, t.QuietTick (fun _ => env) →
        ∃ t' fired wait, t.tick (fun _ => env) = .ok (t', fired) ∧ ExpiresExactly env t fired t' ∧
          t'.nextTickTime (fun _ => env) env = .ok (t', [], wait) ∧ IsLeastWait env t' wait := by
  obtain ⟨t, answers, hrun, ho⟩ := @Machine.run_total_of_meets _ _ _ (timer C) KeepsOrder IsHeap
    new_isHeap (fun _ call ho hcall => timerStep_isHeap ho call hcall) calls horder
  refine ⟨t, answers, hrun, ?_⟩
  intro env hq
  obtain ⟨t', nodes, hok, hticks⟩ := tick_ticks hq
  obtain ⟨wait, hwait, hleast⟩ := nextTickTime_least (hticks.isHeap ho) (hticks.exact ho).2.2.2
  exact ⟨t', nodes.map TimerNode.cb, wait, hok, hticks.expiresExactly ho, hwait, hleast⟩

/-- Of three timers, one put forward at the root, two have expired after 160 ms. -/
theorem expiry_exact_three :
    ∃ t answers t' fired wait, (timer Nat).run
        [.addTimer (quietEnv 0) 1 100 11, .addTimer (quietEnv 0) 2 200 12,
         .addTimer (quietEnv 0) 3 150 13, .adjustTimer (quietEnv 0) 1 50] = some (t, answers) ∧
      t.tick (fun _ => quietEnv 160000000) = .ok (t', fired) ∧
      ExpiresExactly (quietEnv 160000000) t fired t' ∧
      t'.nextTickTime (fun _ => quietEnv 160000000) (quietEnv 160000000) = .ok (t', [], wait) ∧
      IsLeastWait (quietEnv 160000000) t' wait := by
  have hquiet : ((timer Nat).run
      [.addTimer (quietEnv 0) 1 100 11, .addTimer (quietEnv 0) 2 200 12,
       .addTimer (quietEnv 0) 3 150 13, .adjustTimer (quietEnv 0) 1 50]).all
        (fun r => r.1.QuietTick fun _ => quietEnv 160000000) = true := by
    decide +kernel
  obtain ⟨t, answers, hrun, hexact⟩ := expiry_exact
    (show (timer Nat).Meets KeepsOrder new
      [.addTimer (quietEnv 0) 1 100 11, .addTimer (quietEnv 0) 2 200 12,
       .addTimer (quietEnv 0) 3 150 13, .adjustTimer (quietEnv 0) 1 50] by decide +kernel)
  rw [hrun] at hquiet
  obtain ⟨t', fired, wait, htick⟩ := hexact (quietEnv 160000000) (of_decide_eq_true hquiet)
  exact ⟨t, answers, t', fired, wait, hrun, htick⟩

/-- A timer of 50 ms behind one of 100 ms: after 60 ms nothing is run. -/
theorem tick_misses_expired :
    ∃ t answers t' fired, (timer Nat).run
        [.addTimer (quietEnv 0) 1 100 11, .addTimer (quietEnv 0) 2 50 12] = some (t, answers) ∧
      t.tick (fun _ => quietEnv 60000000) = .ok (t', fired) ∧
      ¬ ExpiresExactly (quietEnv 60000000) t fired t' := by
  refine ⟨_, _, _, _, rfl, rfl, ?_⟩
  rintro ⟨nodes, hfired, hperm, -, -⟩
  have hnil : nodes = [] := List.map_eq_nil_iff.mp hfired.symm
  rw [hnil] at hperm
  have hlength := hperm.length_eq
  revert hlength
  decide +kernel

end HeapTimer

end WhiteWebServer
