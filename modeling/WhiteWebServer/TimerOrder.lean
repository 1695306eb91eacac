import WhiteWebServer.TimerExpiry
import WhiteWebServer.TimerFaults

/-!
# The order of the heap

`PercolateUp` never compares a node with the root, and nothing else moves one there from below. So
the condition under which expiry is exact is not only enough for the order of the heap: a call
that gives a node below the root a deadline before the root's always breaks it.
-/

namespace WhiteWebServer

open HeapOrder Outcome

namespace HeapTimer

variable {C : Type} {t t' : HeapTimer C}

/-- Every edge is in order, those from the root included, and the front has the least deadline. -/
structure InOrder (t : HeapTimer C) : Prop where
  edges : ∀ i, 1 ≤ i → i < t.heap.length → t.key ((i - 1) / 2) ≤ t.key i
  front : ∀ root node, t.heap.head? = some root → node ∈ t.heap → root.expires ≤ node.expires

theorem inOrder_iff : t.InOrder ↔ t.IsHeap := by
  constructor
  · exact InOrder.edges
  · intro ho
    exact ⟨ho, fun root node hroot hnode => root_le_of_mem ho hroot hnode⟩

/-! ## A deadline before the root's -/

theorem IsHeap.key_le (ho : t.IsHeap) {node : TimerNode C} (hmem : node ∈ t.heap) :
    t.key 0 ≤ node.expires := by
  obtain ⟨i, hi, rfl⟩ := List.mem_iff_getElem.mp hmem
  rw [← key_of_get (List.getElem?_eq_getElem hi)]
  exact ho.root_le i hi

theorem key_congr (hget : t'.heap[0]? = t.heap[0]?) : t'.key 0 = t.key 0 := by
  rw [key, key, hget]

/-- A node other than the root is overwritten: the root stays, and the heap is in order only
where the new deadline is not before the root's. -/
theorem rewrite_le {env : TimerEnv} {index : Nat} {write : TimerNode C → TimerNode C}
    (hlen : t.heap.length < 2 ^ 63) (hpos : 0 < index)
    (h : (t.writeNode index write >>= fun t₁ => t₁.upOrDown env index) = .ok t')
    (ho : t'.IsHeap) : ∃ hi : index < t.heap.length, t.key 0 ≤ (write t.heap[index]).expires := by
  obtain ⟨hi, hquiet⟩ := rewrite_quiet hlen h
  obtain ⟨t₁, hok, hrewritten⟩ := rewrite_spec env hi hquiet
  obtain rfl := Except.ok.inj (h.symm.trans hok)
  obtain ⟨t₂, hwrite, hsift⟩ := bind_eq_ok.mp h
  rw [writeNode_eq hi] at hwrite
  obtain rfl := Except.ok.inj hwrite
  have hroot : t'.heap[0]? = t.heap[0]? := by
    rw [upOrDown_root hpos hsift]
    exact List.getElem?_set_ne (ne_of_gt hpos)
  refine ⟨hi, ?_⟩
  rw [← key_congr hroot]
  apply ho.key_le
  exact hrewritten.perm.symm.subset (List.mem_set hi _)

/-- The same for a node that is added behind a root. -/
theorem push_le {env : TimerEnv} {node : TimerNode C} (hlen : t.heap.length + 1 < 2 ^ 63)
    (hne : t.heap ≠ []) (h : (t.pushNode node).percolateUp env t.heap.length = .ok t')
    (ho : t'.IsHeap) : t.key 0 ≤ node.expires := by
  have hpos : 0 < t.heap.length := List.length_pos_iff.mpr hne
  have hquiet : (t.pushNode node).QuietUp env t.heap.length := by
    apply percolateUp_quiet _ h
    rw [pushNode, List.length_append]
    exact hlen
  obtain ⟨t₁, hok, hpushed⟩ := push_spec env hquiet
  obtain rfl := Except.ok.inj (h.symm.trans hok)
  have hroot : t'.heap[0]? = t.heap[0]? := by
    rw [(percolateUpLoop_frame hpos h).2 0 (Or.inl rfl)]
    exact List.getElem?_append_left hpos
  rw [← key_congr hroot]
  apply ho.key_le
  exact hpushed.perm.symm.subset (List.mem_append_right _ (List.mem_singleton.mpr rfl))

theorem belowRoot_of_isHeap {call : TimerCall C} {answer : TimerAnswer C} (h : Stored t)
    (hstep : timerStep t call = some (t', answer)) (ho : t'.IsHeap) : t.BelowRoot call := by
  have hlen : t.heap.length < 2 ^ 63 := Nat.lt_of_succ_lt h.room
  cases call with
  | addTimer env fd timeout cb =>
      obtain ⟨t₁, hok, hanswer⟩ := toOption_map_eq_some hstep
      obtain ⟨rfl, -⟩ := Prod.mk.inj hanswer
      rw [addTimer] at hok
      cases hmap : t.fdHeapMap fd with
      | some index =>
          rw [hmap] at hok
          rcases Nat.eq_zero_or_pos index with rfl | hpos
          · exact Or.inl hmap
          · obtain ⟨hi, hle⟩ := rewrite_le hlen hpos hok ho
            exact Or.inr (Or.inr hle)
      | none =>
          rw [hmap] at hok
          by_cases hne : t.heap = []
          · exact Or.inr (Or.inl hne)
          · exact Or.inr (Or.inr (push_le h.room hne hok ho))
  | adjustTimer env fd timeout =>
      obtain ⟨t₁, hok, hanswer⟩ := toOption_map_eq_some hstep
      obtain ⟨rfl, -⟩ := Prod.mk.inj hanswer
      rcases Nat.eq_zero_or_pos (t.indexOf fd) with hzero | hpos
      · exact Or.inl hzero
      · obtain ⟨hi, hle⟩ := @rewrite_le C (t.touchIndex fd) t₁ env _ _ hlen hpos hok ho
        exact Or.inr hle
  | doRightNow env fd => trivial
  | tick envs => trivial
  | nextTickTime envs env => trivial
  | clear => trivial

/-! ## Runs -/

/-- One call is made and keeps the order of a heap exactly where it meets the condition. -/
theorem timerStep_inOrder_iff (h : Stored t) (ho : t.InOrder) (call : TimerCall C) :
    (∃ t' answer, timerStep t call = some (t', answer) ∧ t'.InOrder) ↔ t.KeepsOrder call := by
  constructor
  · rintro ⟨t', answer, hstep, ho'⟩
    exact ⟨(timerStep_made h hstep).1, belowRoot_of_isHeap h hstep (inOrder_iff.mp ho')⟩
  · intro hcall
    obtain ⟨t', answer, hstep, ho'⟩ := timerStep_isHeap (inOrder_iff.mp ho) call hcall
    exact ⟨t', answer, hstep, inOrder_iff.mpr ho'⟩

/-- **The order of the heap.** In a sequence of calls, at any timeouts and clock readings, every
call is made and leaves the heap in order exactly where every call meets the condition. -/
theorem inOrder_iff_keepsOrder {calls : List (TimerCall C)}
    (hints : (timer C).Meets IntFd new calls) :
    (timer C).Always InOrder new calls ↔ (timer C).Meets KeepsOrder new calls :=
  @Machine.always_iff_meets _ _ _ (timer C) IntFd KeepsOrder InOrder Stored
    (fun _ _ _ _ h hint hstep => timerStep_stored h hint hstep)
    (fun _ call h ho _ => timerStep_inOrder_iff h ho call) calls new Stored.new
    (inOrder_iff.mpr new_isHeap) hints

/-- Four timers behind each other, one put forward at the root, one put off and one run. -/
theorem inOrder_of_six : (timer Nat).Always InOrder new
    [.addTimer (quietEnv 0) 1 100 11, .addTimer (quietEnv 0) 2 200 12,
     .addTimer (quietEnv 0) 3 150 13, .addTimer (quietEnv 0) 4 120 14,
     .adjustTimer (quietEnv 0) 1 50, .doRightNow (quietEnv 0) 3] :=
  (inOrder_iff_keepsOrder (by decide +kernel)).mpr (by decide +kernel)

/-- The second timer has the earlier deadline, and stays below the first. -/
theorem addTimer_below_root : ∃ t answers, (timer Nat).run
    [.addTimer (quietEnv 0) 1 100 11, .addTimer (quietEnv 0) 2 50 12] = some (t, answers) ∧
      ¬ t.InOrder := by
  refine ⟨_, _, rfl, ?_⟩
  intro ho
  have hedge := ho.edges 1 (le_refl 1) (by decide +kernel)
  revert hedge
  decide +kernel

end HeapTimer

end WhiteWebServer
