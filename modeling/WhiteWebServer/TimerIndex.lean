import WhiteWebServer.TimerFaults
import WhiteWebServer.TimerMap

/-!
# The index of the timer

`fd_heap_map_` is meant to be the inverse of `heap_`. `PercolateUp` moves nodes and leaves the map
as it is; `SwapNode` gives each of the two nodes the index it has left. So in a right state a call
keeps the map right exactly where no node is moved, apart from the one that is deleted: §1 the
property and the condition, §2 a move of sifting, §3 the calls, §4 runs.
-/

namespace WhiteWebServer

open HeapOrder Outcome

namespace HeapTimer

variable {C : Type} {t t' : HeapTimer C}

/-! ## §1  The property -/

/-- The map gives each descriptor in the heap its index, and has no other entry. -/
structure Indexed (t : HeapTimer C) : Prop where
  entries : ∀ fd i, t.fdHeapMap fd = some i ↔ ∃ node, t.heap[i]? = some node ∧ node.fd = fd
  nodup : (t.heap.map TimerNode.fd).Nodup

/-- `AdjustTimer` is called on a descriptor that has a timer; descriptors are ints. -/
def HasTimer (t : HeapTimer C) : TimerCall C → Prop
  | .addTimer _ fd _ _ => IsInt fd
  | .adjustTimer _ fd _ => fd ∈ t.heap.map TimerNode.fd
  | _ => True

/-- A deadline at the index is not above those of the children there, and above the parent's
where `PercolateUp` looks at one. -/
def Rests (t : HeapTimer C) (index : Nat) (expires : Int) : Prop :=
  (2 * index + 1 < t.heap.length → expires ≤ t.key (2 * index + 1)) ∧
    (2 * index + 2 < t.heap.length → expires ≤ t.key (2 * index + 2)) ∧
      (0 < parent index → t.key (parent index) < expires)

/-- At every turn of `Tick` the root has expired, until there is none. -/
def EmptiesLoop (envs : Nat → TimerEnv) : Nat → Nat → HeapTimer C → Prop
  | 0, _, _ => True
  | fuel + 1, turn, t =>
      ∀ node, t.heap.head? = some node →
        node.remaining (envs turn) ≤ 0 ∧
          ∀ t₁, t.deleteNode (envs turn) 0 = .ok t₁ → EmptiesLoop envs fuel (turn + 1) t₁

/-- `Tick` removes no node, or all. -/
def NoneOrAll (envs : Nat → TimerEnv) (t : HeapTimer C) : Prop :=
  (∀ node, t.heap.head? = some node → 0 < node.remaining (envs 0)) ∨
    EmptiesLoop envs t.heap.length 0 t

/-- The call moves no node but the one it deletes. -/
def KeepsPlaces (t : HeapTimer C) : TimerCall C → Prop
  | .addTimer env fd timeout _ =>
      t.Rests ((t.fdHeapMap fd).getD t.heap.length) (deadline env timeout)
  | .adjustTimer env fd timeout => t.Rests (t.indexOf fd) (deadline env timeout)
  | .doRightNow _ fd => ∀ index, t.fdHeapMap fd = some index → index = t.heap.length - 1
  | .tick envs => t.NoneOrAll envs
  | .nextTickTime envs _ => t.NoneOrAll envs
  | .clear => True

/-- The call moves no node but the one it deletes, and sifting stays in the heap. -/
def KeepsIndex (t : HeapTimer C) (call : TimerCall C) : Prop :=
  t.StaysInside call ∧ t.KeepsPlaces call

instance (t : HeapTimer C) : ∀ call, Decidable (t.HasTimer call)
  | .addTimer _ fd _ _ => inferInstanceAs (Decidable (IsInt fd))
  | .adjustTimer _ fd _ => inferInstanceAs (Decidable (fd ∈ t.heap.map TimerNode.fd))
  | .doRightNow _ _ => isTrue trivial
  | .tick _ => isTrue trivial
  | .nextTickTime _ _ => isTrue trivial
  | .clear => isTrue trivial

instance (t : HeapTimer C) (index : Nat) (expires : Int) : Decidable (t.Rests index expires) :=
  inferInstanceAs (Decidable (_ ∧ _ ∧ _))

instance decidableEmptiesLoop (envs : Nat → TimerEnv) :
    ∀ (fuel turn : Nat) (t : HeapTimer C), Decidable (EmptiesLoop envs fuel turn t)
  | 0, _, _ => isTrue trivial
  | fuel + 1, turn, t =>
      match hhead : t.heap.head? with
      | none => isTrue (by simp [EmptiesLoop, hhead])
      | some node =>
          match hdelete : t.deleteNode (envs turn) 0 with
          | .error _ =>
              decidable_of_iff (node.remaining (envs turn) ≤ 0)
                (by simp [EmptiesLoop, hhead, hdelete])
          | .ok t₁ =>
              have := decidableEmptiesLoop envs fuel (turn + 1) t₁
              decidable_of_iff
                (node.remaining (envs turn) ≤ 0 ∧ EmptiesLoop envs fuel (turn + 1) t₁)
                (by simp [EmptiesLoop, hhead, hdelete])

instance (envs : Nat → TimerEnv) (t : HeapTimer C) :
    Decidable (∀ node, t.heap.head? = some node → 0 < node.remaining (envs 0)) :=
  match hhead : t.heap.head? with
  | none => isTrue (by simp)
  | some node => decidable_of_iff (0 < node.remaining (envs 0)) (by simp)

instance (envs : Nat → TimerEnv) (t : HeapTimer C) : Decidable (t.NoneOrAll envs) :=
  inferInstanceAs (Decidable (_ ∨ _))

instance (t : HeapTimer C) (fd : Int) :
    Decidable (∀ index, t.fdHeapMap fd = some index → index = t.heap.length - 1) :=
  match hmap : t.fdHeapMap fd with
  | none => isTrue (by simp)
  | some index => decidable_of_iff (index = t.heap.length - 1) (by simp)

instance (t : HeapTimer C) : ∀ call, Decidable (t.KeepsPlaces call)
  | .addTimer _ _ _ _ => inferInstanceAs (Decidable (t.Rests _ _))
  | .adjustTimer _ _ _ => inferInstanceAs (Decidable (t.Rests _ _))
  | .doRightNow _ fd =>
      inferInstanceAs
        (Decidable (∀ index, t.fdHeapMap fd = some index → index = t.heap.length - 1))
  | .tick envs => inferInstanceAs (Decidable (t.NoneOrAll envs))
  | .nextTickTime envs _ => inferInstanceAs (Decidable (t.NoneOrAll envs))
  | .clear => isTrue trivial

instance (t : HeapTimer C) (call : TimerCall C) : Decidable (t.KeepsIndex call) :=
  inferInstanceAs (Decidable (_ ∧ _))

namespace Indexed

theorem new : Indexed (HeapTimer.new : HeapTimer C) := by
  refine ⟨fun fd i => ?_, List.nodup_nil⟩
  constructor
  · intro hmap
    cases hmap
  · rintro ⟨node, hnode, -⟩
    cases hnode

theorem entry (h : Indexed t) {i : Nat} {node : TimerNode C} (hnode : t.heap[i]? = some node) :
    t.fdHeapMap node.fd = some i :=
  (h.entries node.fd i).mpr ⟨node, hnode, rfl⟩

theorem lt_length (h : Indexed t) {fd : Int} {i : Nat} (hmap : t.fdHeapMap fd = some i) :
    i < t.heap.length := by
  obtain ⟨node, hnode, -⟩ := (h.entries fd i).mp hmap
  exact (List.getElem?_eq_some_iff.mp hnode).1

/-- A node whose entry is not its index. -/
theorem not_misplaced (h : Indexed t) {i j : Nat} {node : TimerNode C}
    (hnode : t.heap[i]? = some node) (hmap : t.fdHeapMap node.fd = some j) : j = i := by
  rw [h.entry hnode] at hmap
  exact (Option.some.inj hmap).symm

/-- A state with the same descriptors in the same places. -/
theorem congr (h : Indexed t) (hfds : t'.heap.map TimerNode.fd = t.heap.map TimerNode.fd)
    (hmap : t'.fdHeapMap = t.fdHeapMap) : Indexed t' := by
  refine ⟨fun fd i => ?_, by rw [hfds]; exact h.nodup⟩
  have hget : t'.heap[i]?.map TimerNode.fd = t.heap[i]?.map TimerNode.fd := by
    rw [← List.getElem?_map, ← List.getElem?_map, hfds]
  rw [hmap, h.entries, ← Option.map_eq_some_iff, ← Option.map_eq_some_iff, hget]

end Indexed

/-! ## §2  A move of sifting -/

theorem eq_of_same_fd (hnodup : (t.heap.map TimerNode.fd).Nodup) {i j : Nat}
    {node node' : TimerNode C} (hi : t.heap[i]? = some node) (hj : t.heap[j]? = some node')
    (hfd : node.fd = node'.fd) : i = j := by
  have hi' : (t.heap.map TimerNode.fd)[i]? = some node.fd := by rw [List.getElem?_map, hi]; rfl
  have hj' : (t.heap.map TimerNode.fd)[j]? = some node.fd := by rw [List.getElem?_map, hj, hfd]; rfl
  have hlt : i < (t.heap.map TimerNode.fd).length := (List.getElem?_eq_some_iff.mp hi').1
  exact (List.getElem?_inj hlt hnodup).mp (hi'.trans hj'.symm)

/-- Sifting up from a right state keeps the map right exactly where it moves nothing. -/
theorem percolateUp_indexed_iff {env : TimerEnv} {index : Nat} (h : t.Indexed)
    (hquiet : t.QuietUp env index) (hok : t.percolateUp env index = .ok t') :
    t'.Indexed ↔
      (index < t.heap.length → 0 < parent index → t.key (parent index) < t.key index) := by
  by_cases hout : index = 0 ∨ t.heap.length ≤ index
  · obtain rfl := Except.ok.inj (hok.symm.trans (percolateUp_outside env hquiet hout))
    apply iff_of_true h
    intro hi hparent
    rcases hout with rfl | hout
    · exact absurd hparent (lt_irrefl 0)
    · exact absurd hi (not_lt.mpr hout)
  · have hpos : 0 < index := Nat.pos_of_ne_zero fun h => hout (Or.inl h)
    have hi : index < t.heap.length := not_le.mp fun h => hout (Or.inr h)
    have hlt : parent index < index := parent_lt hpos
    have hp : parent index < t.heap.length := lt_trans hlt hi
    rw [percolateUp, percolateUpLoop, parentNode_eq hpos] at hok
    by_cases hparent : 0 < parent index
    · rw [if_pos hparent, less_eq env hp hi] at hok
      by_cases hless : t.key (parent index) < t.key index
      · rw [decide_eq_true hless] at hok
        obtain rfl := Except.ok.inj hok
        exact iff_of_true h fun _ _ => hless
      · -- the parent's node is at the index now, and its entry is where it was
        rw [decide_eq_false hless] at hok
        obtain ⟨t₁, hswap, hloop⟩ := (bind_eq_ok (α := HeapTimer C)).mp hok
        obtain ⟨t₂, hswap', hmap, -, hget⟩ := swapHeap_spec hp hi
        obtain rfl := Except.ok.inj (hswap.symm.trans hswap')
        obtain ⟨hmap', hget'⟩ := percolateUpLoop_frame hparent hloop
        have hnode : t'.heap[index]? = some t.heap[parent index] := by
          rw [hget' index (Or.inr hlt), hget, Equiv.swap_apply_right, List.getElem?_eq_getElem hp]
        have hentry : t'.fdHeapMap t.heap[parent index].fd = some (parent index) := by
          rw [hmap', hmap]
          exact h.entry (List.getElem?_eq_getElem hp)
        refine iff_of_false (fun h' => ?_) fun hall => hless (hall hi hparent)
        exact absurd (h'.not_misplaced hnode hentry) (ne_of_lt hlt)
    · rw [if_neg hparent] at hok
      obtain rfl := Except.ok.inj hok
      exact iff_of_true h fun _ hpos' => absurd hpos' hparent

/-- Sifting down that moves a node leaves a child's node with the index it had. -/
theorem percolateDown_misplaces {env : TimerEnv} {index i : Nat}
    (hnodup : (t.heap.map TimerNode.fd).Nodup) (hi : 0 < i) (hn : i < t.heap.length)
    (hpi : parent i = index) (hlt : t.key i < t.key index)
    (hok : t.percolateDown env index = .ok t') : ¬ t'.Indexed := by
  rcases percolateDownLoop_turn index t with
    ⟨-, hle⟩ | ⟨c, t₁, hic, hcn, hpc, -, -, hswap, hturn⟩
  · exact absurd hlt (not_lt.mpr (hle i hi hn hpi))
  · have hin : index < t.heap.length := lt_trans hic hcn
    obtain ⟨t₂, hswap', hperm, hget, hmap⟩ := swapNode_spec hcn hin
    obtain rfl := Except.ok.inj (hswap.symm.trans hswap')
    obtain ⟨fuel, hfuel⟩ := Nat.exists_eq_succ_of_ne_zero (Nat.ne_zero_of_lt hn)
    rw [percolateDown, hfuel, hturn] at hok
    obtain ⟨t₃, hloop, -, hsifted, -⟩ := percolateDownLoop_sifts c t₁
    have hcover : t₁.heap.length ≤ c + fuel := by
      rw [hperm.length_eq, hfuel]
      omega
    obtain rfl := Except.ok.inj (hok.symm.trans (hloop env fuel hcover))
    have houtside : ¬ Under c index := fun hunder => absurd hic (not_lt.mpr hunder.le)
    have hnode₁ : t₁.heap[index]? = some t.heap[c] := by
      rw [hget, Equiv.swap_apply_right, List.getElem?_eq_getElem hcn]
    have hnode : t'.heap[index]? = some t.heap[c] := by
      rw [hsifted.outside houtside, hnode₁]
    have hnodup₁ : (t₁.heap.map TimerNode.fd).Nodup :=
      (hperm.map TimerNode.fd).nodup_iff.mpr hnodup
    have hentry : t'.fdHeapMap t.heap[c].fd = some c := by
      rw [hsifted.entries, hmap, Function.update_self]
      intro k node hunder hk hfd
      rw [eq_of_same_fd hnodup₁ hk hnode₁ hfd] at hunder
      exact houtside hunder
    intro h'
    exact absurd (h'.not_misplaced hnode hentry) (ne_of_gt hic)

theorem children_le_iff {index : Nat} {expires : Int} :
    (∀ i, 0 < i → i < t.heap.length → parent i = index → expires ≤ t.key i) ↔
      (2 * index + 1 < t.heap.length → expires ≤ t.key (2 * index + 1)) ∧
        (2 * index + 2 < t.heap.length → expires ≤ t.key (2 * index + 2)) := by
  constructor
  · intro hall
    exact ⟨fun hn => hall _ (Nat.succ_pos _) hn (parent_left index),
      fun hn => hall _ (Nat.succ_pos _) hn (parent_right index)⟩
  · rintro ⟨hleft, hright⟩ i hi hn hpi
    rcases eq_child hi hpi with rfl | rfl
    · exact hleft hn
    · exact hright hn

theorem upOrDown_indexed_iff {env : TimerEnv} {index : Nat} (h : t.Indexed)
    (hi : index < t.heap.length) (hquiet : t.Quiet env index)
    (hok : t.upOrDown env index = .ok t') : t'.Indexed ↔ t.Rests index (t.key index) := by
  rw [Rests, ← and_assoc, ← children_le_iff]
  rcases upOrDown_cases env index t with ⟨hup, hcase, hchild⟩ | ⟨hcase, i, hpos, hn, hpi, hlt⟩
  · rw [percolateUp_indexed_iff h (hquiet hup) (hcase.symm.trans hok)]
    constructor
    · exact fun hparent => ⟨hchild, hparent hi⟩
    · exact fun hrests _ => hrests.2
  · apply iff_of_false
    · exact percolateDown_misplaces h.nodup hpos hn hpi hlt (hcase.symm.trans hok)
    · exact fun hrests => absurd hlt (not_lt.mpr (hrests.1 i hpos hn hpi))

/-! ## §3  The calls -/

theorem pos_of_parent_pos {i : Nat} (h : 0 < parent i) : 0 < i := by
  apply Nat.pos_of_ne_zero
  rintro rfl
  exact absurd h (lt_irrefl 0)

theorem rewrite_indexed_iff {env : TimerEnv} {index : Nat} {write : TimerNode C → TimerNode C}
    (h : t.Indexed) (hi : index < t.heap.length) (hquiet : t.QuietWrite env index write)
    (hfd : ∀ node, (write node).fd = node.fd)
    (hok : (t.writeNode index write >>= fun t₁ => t₁.upOrDown env index) = .ok t') :
    t'.Indexed ↔ t.Rests index (write t.heap[index]).expires := by
  obtain ⟨t₁, hwrite, hsift⟩ := bind_eq_ok.mp hok
  have hquiet₁ := hquiet t₁ hwrite
  rw [writeNode_eq hi] at hwrite
  obtain rfl := Except.ok.inj hwrite
  have hlen : (t.heap.set index (write t.heap[index])).length = t.heap.length := List.length_set
  have hindexed : Indexed
      { heap := t.heap.set index (write t.heap[index]), fdHeapMap := t.fdHeapMap } :=
    h.congr (set_fd hi (hfd _)) rfl
  rw [upOrDown_indexed_iff hindexed (by rw [hlen]; exact hi) hquiet₁ hsift,
    key_of_get (List.getElem?_set_self hi)]
  have hleft : 2 * index + 1 ≠ index := by omega
  have hright : 2 * index + 2 ≠ index := by omega
  rw [Rests, Rests, hlen, key_set_ne hleft, key_set_ne hright]
  refine and_congr_right fun _ => and_congr_right fun _ => imp_congr_right fun hparent => ?_
  rw [key_set_ne (ne_of_lt (parent_lt (pos_of_parent_pos hparent)))]

theorem push_get {node node' : TimerNode C} {i : Nat} :
    (t.heap ++ [node])[i]? = some node' ↔
      t.heap[i]? = some node' ∨ (i = t.heap.length ∧ node = node') := by
  rcases Nat.lt_trichotomy i t.heap.length with hi | rfl | hi
  · rw [List.getElem?_append_left hi]
    exact ⟨Or.inl, fun h => h.resolve_right fun heq => absurd heq.1 (ne_of_lt hi)⟩
  · rw [List.getElem?_concat_length, List.getElem?_eq_none (le_refl _)]
    constructor
    · exact fun h => Or.inr ⟨rfl, Option.some.inj h⟩
    · rintro (h | ⟨-, rfl⟩)
      · cases h
      · rfl
  · rw [List.getElem?_eq_none (le_of_lt hi), List.getElem?_eq_none]
    · exact ⟨fun h => Or.inl h, fun h => h.resolve_right fun heq => absurd heq.1 (ne_of_gt hi)⟩
    · rw [List.length_append]
      exact hi

/-- A node that is put behind the others gets its index. -/
theorem Indexed.push {node : TimerNode C} (h : t.Indexed) (hnone : t.fdHeapMap node.fd = none) :
    (t.pushNode node).Indexed := by
  have hfresh : ∀ (i : Nat) (node' : TimerNode C), t.heap[i]? = some node' →
      node'.fd ≠ node.fd := by
    intro i node' hget hfd
    have hentry := h.entry hget
    rw [hfd, hnone] at hentry
    cases hentry
  constructor
  case entries =>
    intro fd i
    simp only [pushNode, push_get]
    by_cases hfd : fd = node.fd
    · rw [hfd, Function.update_self]
      constructor
      · intro hi
        exact ⟨node, Or.inr ⟨(Option.some.inj hi).symm, rfl⟩, rfl⟩
      · rintro ⟨node', hget | ⟨rfl, -⟩, hfd'⟩
        · exact absurd hfd' (hfresh i node' hget)
        · rfl
    · rw [Function.update_of_ne hfd, h.entries]
      constructor
      · rintro ⟨node', hget, hfd'⟩
        exact ⟨node', Or.inl hget, hfd'⟩
      · rintro ⟨node', hget | ⟨-, rfl⟩, hfd'⟩
        · exact ⟨node', hget, hfd'⟩
        · exact absurd hfd'.symm hfd
  case nodup =>
    have hperm : ((t.heap ++ [node]).map TimerNode.fd).Perm
        (node.fd :: t.heap.map TimerNode.fd) :=
      (List.perm_append_singleton node t.heap).map TimerNode.fd
    apply hperm.nodup_iff.mpr
    apply List.nodup_cons.mpr
    refine ⟨?_, h.nodup⟩
    intro hmem
    obtain ⟨node', hnode', hfd⟩ := List.mem_map.mp hmem
    obtain ⟨i, hget⟩ := List.mem_iff_getElem?.mp hnode'
    exact hfresh i node' hget hfd

theorem push_indexed_iff {env : TimerEnv} {node : TimerNode C} (h : t.Indexed)
    (hnone : t.fdHeapMap node.fd = none)
    (hquiet : (t.pushNode node).QuietUp env t.heap.length)
    (hok : (t.pushNode node).percolateUp env t.heap.length = .ok t') :
    t'.Indexed ↔ t.Rests t.heap.length node.expires := by
  have hlt : t.heap.length < (t.heap ++ [node]).length := by
    rw [List.length_append]
    exact Nat.lt_succ_self _
  have hkey : (t.pushNode node).key t.heap.length = node.expires :=
    key_of_get List.getElem?_concat_length
  have hparent : 0 < parent t.heap.length →
      (t.pushNode node).key (parent t.heap.length) = t.key (parent t.heap.length) := by
    intro hpos
    have hp : parent t.heap.length < t.heap.length := parent_lt (pos_of_parent_pos hpos)
    rw [key, key, pushNode, List.getElem?_append_left hp]
  rw [percolateUp_indexed_iff (h.push hnone) hquiet hok]
  constructor
  · intro hall
    refine ⟨fun hn => by omega, fun hn => by omega, fun hpos => ?_⟩
    rw [← hparent hpos, ← hkey]
    exact hall hlt hpos
  · intro hrests _ hpos
    rw [hparent hpos, hkey]
    exact hrests.2.2 hpos

theorem percolateUp_map {env : TimerEnv} {index : Nat} (hquiet : t.QuietUp env index)
    (hok : t.percolateUp env index = .ok t') : t'.fdHeapMap = t.fdHeapMap := by
  rcases Nat.eq_zero_or_pos index with hzero | hpos
  · obtain rfl := Except.ok.inj (hok.symm.trans (percolateUp_outside env hquiet (Or.inl hzero)))
    rfl
  · exact (percolateUpLoop_frame hpos hok).1

/-- A node is gone with its entry, and the others are where they were. -/
theorem Indexed.drop (h : t.Indexed) {index : Nat} {node : TimerNode C}
    (hnode : t.heap[index]? = some node)
    (hrest : ∀ i node', t'.heap[i]? = some node' ↔ i ≠ index ∧ t.heap[i]? = some node')
    (hmap : t'.fdHeapMap = Function.update t.fdHeapMap node.fd none)
    (hnodup : (t'.heap.map TimerNode.fd).Nodup) : t'.Indexed := by
  refine ⟨fun fd i => ?_, hnodup⟩
  rw [hmap]
  by_cases hfd : fd = node.fd
  · rw [hfd, Function.update_self]
    refine iff_of_false (fun hnone => by cases hnone) ?_
    rintro ⟨node', hnode', hfd'⟩
    obtain ⟨hne, hold⟩ := (hrest i node').mp hnode'
    exact hne (eq_of_same_fd h.nodup hold hnode hfd')
  · rw [Function.update_of_ne hfd, h.entries]
    constructor
    · rintro ⟨node', hnode', hfd'⟩
      refine ⟨node', (hrest i node').mpr ⟨?_, hnode'⟩, hfd'⟩
      rintro rfl
      rw [hnode] at hnode'
      rw [Option.some.inj hnode'] at hfd
      exact hfd hfd'.symm
    · rintro ⟨node', hnode', hfd'⟩
      exact ⟨node', ((hrest i node').mp hnode').2, hfd'⟩

/-- The last node leaves nothing behind. -/
theorem deleteNode_last {env : TimerEnv} {index : Nat} (h : t.Indexed) (hi : index < t.heap.length)
    (hlast : index = t.heap.length - 1) (hquiet : t.QuietDelete env index)
    (hok : t.deleteNode env index = .ok t') : t'.Indexed := by
  obtain ⟨t₁, htake, hsift⟩ := bind_eq_ok.mp hok
  have hquiet₁ := hquiet t₁ htake
  obtain ⟨t₂, htake', hperm, ⟨hlt, hmap⟩, hlen, hget⟩ := takeOut_spec hi
  obtain rfl := Except.ok.inj (htake.symm.trans htake')
  have hbehind : t₁.heap.length ≤ index := by rw [hlen, hlast]
  -- the index is behind the heap now, and sifting from there moves nothing
  obtain rfl : t' = t₁ := by
    rcases upOrDown_cases env index t₁ with ⟨hup, hcase, -⟩ | ⟨-, i, hpos, hn, hpi, -⟩
    · have hsame := percolateUp_outside env (hquiet₁ hup) (Or.inr hbehind)
      exact Except.ok.inj (hsift.symm.trans (hcase.trans hsame))
    · rw [← hpi] at hbehind
      exact absurd (lt_trans (parent_lt hpos) hn) (not_lt.mpr hbehind)
  have hrest : ∀ i node, t'.heap[i]? = some node ↔ i ≠ index ∧ t.heap[i]? = some node := by
    intro i node
    rcases lt_or_ge i t'.heap.length with hi' | hi'
    · have hne : i ≠ index := ne_of_lt (lt_of_lt_of_le hi' hbehind)
      have hsame : t'.heap[i]? = t.heap[i]? := by
        rw [hget i (by rw [← hlen]; exact hi'), ← hlast, Equiv.swap_self]
        rfl
      rw [hsame]
      exact ⟨fun hnode => ⟨hne, hnode⟩, fun hnode => hnode.2⟩
    · rw [List.getElem?_eq_none hi']
      refine iff_of_false (fun hnone => by cases hnone) ?_
      rintro ⟨hne, hnode⟩
      have hlt' : i < t.heap.length := (List.getElem?_eq_some_iff.mp hnode).1
      rw [hlen] at hi'
      omega
  have hback : t.heap[t.heap.length - 1].fd = t.heap[index].fd := by
    simp only [← hlast]
  rw [hback, Function.update_idem] at hmap
  apply h.drop (List.getElem?_eq_getElem hi) hrest hmap
  exact (List.nodup_cons.mp ((hperm.map TimerNode.fd).nodup_iff.mp h.nodup)).2

/-- Deleting another node puts the last one in its place, and leaves an entry that is not that of
its node: the last node's, or where that is sifted down, that of a child. -/
theorem deleteNode_misplaces {env : TimerEnv} {index : Nat}
    (hnodup : (t.heap.map TimerNode.fd).Nodup) (hi : index < t.heap.length - 1)
    (hquiet : t.QuietDelete env index) (hok : t.deleteNode env index = .ok t') :
    ¬ t'.Indexed := by
  have hin : index < t.heap.length := lt_of_lt_of_le hi (Nat.sub_le _ _)
  obtain ⟨t₁, htake, hsift⟩ := bind_eq_ok.mp hok
  have hquiet₁ := hquiet t₁ htake
  obtain ⟨t₂, htake', hperm, ⟨hlt, hmap⟩, hlen, hget⟩ := takeOut_spec hin
  obtain rfl := Except.ok.inj (htake.symm.trans htake')
  have hnodup₁ : (t₁.heap.map TimerNode.fd).Nodup :=
    (List.nodup_cons.mp ((hperm.map TimerNode.fd).nodup_iff.mp hnodup)).2
  rcases upOrDown_cases env index t₁ with ⟨hup, hcase, -⟩ | ⟨hcase, i, hpos, hn, hpi, hless⟩
  · -- the last node keeps its old index, which the heap does not reach any more
    have hfd : t.heap[t.heap.length - 1].fd ≠ t.heap[index].fd := by
      intro hfd
      exact absurd (eq_of_same_fd hnodup (List.getElem?_eq_getElem hlt)
        (List.getElem?_eq_getElem hin) hfd) (ne_of_gt hi)
    have hup' := hcase.symm.trans hsift
    have hentry : t'.fdHeapMap t.heap[t.heap.length - 1].fd = some (t.heap.length - 1) := by
      rw [percolateUp_map (hquiet₁ hup) hup', hmap, Function.update_of_ne hfd,
        Function.update_self]
    obtain ⟨t₃, hok', hmoved, -⟩ := percolateUp_spec env (hquiet₁ hup)
    obtain rfl := Except.ok.inj (hup'.symm.trans hok')
    intro h'
    have hbound := h'.lt_length hentry
    rw [hmoved.length, hlen] at hbound
    exact lt_irrefl _ hbound
  · exact percolateDown_misplaces hnodup₁ hpos hn hpi hless (hcase.symm.trans hsift)

/-- The map has the descriptors of the heap, whatever it says of them. -/
def Entered (t : HeapTimer C) : Prop :=
  ∀ fd, (t.fdHeapMap fd).isSome ↔ fd ∈ t.heap.map TimerNode.fd

theorem Indexed.entered (h : t.Indexed) : t.Entered := by
  intro fd
  constructor
  · intro hsome
    obtain ⟨i, hmap⟩ := Option.isSome_iff_exists.mp hsome
    obtain ⟨node, hnode, hfd⟩ := (h.entries fd i).mp hmap
    exact List.mem_map.mpr ⟨node, List.mem_of_getElem? hnode, hfd⟩
  · intro hmem
    obtain ⟨node, hnode, rfl⟩ := List.mem_map.mp hmem
    obtain ⟨i, hget⟩ := List.mem_iff_getElem?.mp hnode
    rw [h.entry hget]
    rfl

theorem Entered.deleted (h : t.Entered) (hs : Stored t) {node : TimerNode C}
    (hd : Deleted node t t') : t'.Entered := by
  have hfds : (t.heap.map TimerNode.fd).Perm (node.fd :: t'.heap.map TimerNode.fd) :=
    hd.perm.map TimerNode.fd
  have hnot := (List.nodup_cons.mp (hfds.nodup_iff.mp hs.nodup)).1
  intro fd
  rw [hd.keys hs.nodup hs.keyed, Bool.and_eq_true, decide_eq_true_eq, h, hfds.mem_iff,
    List.mem_cons]
  constructor
  · rintro ⟨hne, hmem⟩
    exact hmem.resolve_left hne
  · intro hmem
    refine ⟨?_, Or.inr hmem⟩
    rintro rfl
    exact hnot hmem

theorem Entered.indexed (h : t.Entered) (hnil : t.heap = []) : t.Indexed := by
  constructor
  case entries =>
    intro fd i
    have hnone : t.fdHeapMap fd = none := by
      cases hmap : t.fdHeapMap fd with
      | none => rfl
      | some j =>
          have hmem := (h fd).mp (by rw [hmap]; rfl)
          rw [hnil] at hmem
          cases hmem
    rw [hnone, hnil]
    constructor
    · intro heq
      cases heq
    · rintro ⟨node, hnode, -⟩
      cases hnode
  case nodup =>
    rw [hnil]
    exact List.nodup_nil

theorem emptiesLoop_nil {envs : Nat → TimerEnv} (hnil : t.heap = []) :
    ∀ fuel turn, EmptiesLoop envs fuel turn t
  | 0, _ => trivial
  | _ + 1, _ => by
      intro node hhead
      rw [hnil] at hhead
      cases hhead

/-- `Tick` leaves a right map where it removes nothing, and an empty one where it removes all. -/
theorem tickLoop_indexed_iff {envs : Nat → TimerEnv} :
    ∀ {fuel turn : Nat} {t t' : HeapTimer C} {fired : List C}, Stored t → t.Entered →
      t.heap.length ≤ fuel → tickLoop envs fuel turn t = .ok (t', fired) →
      (t'.Indexed ↔
        (t.Indexed ∧ ∀ node, t.heap.head? = some node → 0 < node.remaining (envs turn)) ∨
          EmptiesLoop envs fuel turn t) := by
  intro fuel
  induction fuel with
  | zero =>
      intro turn t t' fired _ hentered hfuel hok
      obtain ⟨rfl, -⟩ := Prod.mk.inj (Except.ok.inj hok)
      have hnil : t.heap = [] := List.length_eq_zero_iff.mp (Nat.le_zero.mp hfuel)
      exact iff_of_true (hentered.indexed hnil) (Or.inr trivial)
  | succ fuel ih =>
      intro turn t t' fired hs hentered hfuel hok
      rcases tickLoop_turn (Nat.lt_of_succ_lt hs.room) hok with
        ⟨hstop, rfl⟩ | ⟨node, t₁, fired', hhead, hexpired, hquiet, hdelete, hdeleted, hloop⟩
      · constructor
        · exact fun h => Or.inl ⟨h, hstop⟩
        · rintro (h | hempties)
          · exact h.1
          · apply hentered.indexed
            cases hhead : t'.heap.head? with
            | none => exact List.head?_eq_none_iff.mp hhead
            | some node => exact absurd (hstop node hhead) (not_lt.mpr (hempties node hhead).1)
      · have hfuel₁ : t₁.heap.length ≤ fuel :=
          Nat.le_of_lt_succ (lt_of_lt_of_le hdeleted.length_lt hfuel)
        rw [ih (hs.deleted hdeleted) (hentered.deleted hs hdeleted) hfuel₁ hloop]
        have hlast : t₁.Indexed → EmptiesLoop envs fuel (turn + 1) t₁ := by
          intro h₁
          apply emptiesLoop_nil
          have hone : ¬ 0 < t.heap.length - 1 :=
            fun hmore => deleteNode_misplaces hs.nodup hmore hquiet hdelete h₁
          have hlt := hdeleted.length_lt
          exact List.length_eq_zero_iff.mp (by omega)
        constructor
        · intro h
          right
          intro node' hhead'
          obtain rfl := Option.some.inj (hhead.symm.trans hhead')
          refine ⟨hexpired, ?_⟩
          intro t₂ hdelete'
          obtain rfl := Except.ok.inj (hdelete.symm.trans hdelete')
          exact h.elim (fun h₁ => hlast h₁.1) id
        · rintro (h | hempties)
          · exact absurd (h.2 node hhead) (not_lt.mpr hexpired)
          · exact Or.inr ((hempties node hhead).2 t₁ hdelete)

theorem tick_indexed_iff {envs : Nat → TimerEnv} {fired : List C} (hs : Stored t) (h : t.Indexed)
    (hok : t.tick envs = .ok (t', fired)) : t'.Indexed ↔ t.NoneOrAll envs := by
  rw [tickLoop_indexed_iff hs h.entered (le_refl _) hok, NoneOrAll]
  exact or_congr_left (and_iff_right h)

/-- In a right state, a call that is made keeps the map right exactly where it moves no node but
the one it deletes. -/
theorem timerStep_indexed_iff {call : TimerCall C} {answer : TimerAnswer C} (hs : Stored t)
    (h : t.Indexed) (htimer : t.HasTimer call) (hstep : timerStep t call = some (t', answer)) :
    t'.Indexed ↔ t.KeepsPlaces call := by
  have hinside := timerStep_inside hs.room hstep
  cases call with
  | addTimer env fd timeout cb =>
      obtain ⟨t₁, hok, hanswer⟩ := toOption_map_eq_some hstep
      obtain ⟨rfl, -⟩ := Prod.mk.inj hanswer
      rw [addTimer] at hok
      cases hmap : t.fdHeapMap fd with
      | some index =>
          rw [hmap] at hok
          simp only [StaysInside, hmap] at hinside
          simp only [KeepsPlaces, hmap, Option.getD_some]
          exact rewrite_indexed_iff h hinside.1 hinside.2 (fun _ => rfl) hok
      | none =>
          rw [hmap] at hok
          simp only [StaysInside, hmap] at hinside
          simp only [KeepsPlaces, hmap, Option.getD_none]
          exact push_indexed_iff h hmap hinside hok
  | adjustTimer env fd timeout =>
      obtain ⟨t₁, hok, hanswer⟩ := toOption_map_eq_some hstep
      obtain ⟨rfl, -⟩ := Prod.mk.inj hanswer
      have hsome : (t.fdHeapMap fd).isSome := (h.entered fd).mpr htimer
      rw [adjustTimer, touchIndex_eq hsome] at hok
      obtain ⟨hi, hquiet⟩ := hinside
      rw [touchIndex_eq hsome] at hquiet
      exact rewrite_indexed_iff h hi hquiet (fun _ => rfl) hok
  | doRightNow env fd =>
      obtain ⟨r, hok, hanswer⟩ := toOption_map_eq_some hstep
      obtain ⟨rfl, -⟩ := Prod.mk.inj hanswer
      rw [doRightNow] at hok
      cases hmap : t.fdHeapMap fd with
      | none =>
          rw [hmap] at hok
          obtain rfl := Except.ok.inj hok
          apply iff_of_true h
          intro index hindex
          rw [hmap] at hindex
          cases hindex
      | some index =>
          simp only [StaysInside, hmap] at hinside
          obtain ⟨hi, hquiet⟩ := hinside
          simp only [hmap, List.getElem?_eq_getElem hi] at hok
          obtain ⟨t₁, hdelete, hpure⟩ := bind_eq_ok.mp hok
          obtain rfl := Except.ok.inj hpure
          simp only [KeepsPlaces, hmap, Option.some.injEq, forall_eq']
          constructor
          · intro h'
            by_contra hinner
            have hlt : index < t.heap.length - 1 := by omega
            exact deleteNode_misplaces hs.nodup hlt hquiet hdelete h'
          · exact fun hlast => deleteNode_last h hi hlast hquiet hdelete
  | tick envs =>
      obtain ⟨r, hok, hanswer⟩ := toOption_map_eq_some hstep
      obtain ⟨rfl, -⟩ := Prod.mk.inj hanswer
      exact tick_indexed_iff hs h hok
  | nextTickTime envs env =>
      obtain ⟨r, hok, hanswer⟩ := toOption_map_eq_some hstep
      obtain ⟨rfl, -⟩ := Prod.mk.inj hanswer
      cases htick : t.tick envs with
      | error e =>
          rw [nextTickTime, htick] at hok
          cases hok
      | ok r =>
          rw [nextTickTime, htick] at hok
          obtain rfl := Except.ok.inj hok
          exact tick_indexed_iff hs h htick
  | clear =>
      obtain ⟨rfl, -⟩ := Prod.mk.inj (Option.some.inj hstep)
      exact iff_of_true Indexed.new trivial

/-! ## §4  Runs -/

theorem HasTimer.intFd {call : TimerCall C} (h : t.HasTimer call) : t.IntFd call := by
  cases call with
  | addTimer env fd timeout cb => exact h
  | adjustTimer env fd timeout => trivial
  | doRightNow env fd => trivial
  | tick envs => trivial
  | nextTickTime envs env => trivial
  | clear => trivial

/-- **The index.** In a sequence of calls, each `AdjustTimer` among them on a descriptor that has a
timer, every call is made and leaves `fd_heap_map_` the inverse of `heap_` exactly where every call
meets the condition. -/
theorem indexed_iff_keepsIndex {calls : List (TimerCall C)}
    (htimers : (timer C).Meets HasTimer new calls) :
    (timer C).Always Indexed new calls ↔ (timer C).Meets KeepsIndex new calls := by
  apply @Machine.always_iff_meets _ _ _ (timer C) HasTimer KeepsIndex Indexed Stored
    (fun _ _ _ _ hs htimer hstep => timerStep_stored hs htimer.intFd hstep)
  · intro t call hs h htimer
    constructor
    · rintro ⟨t', answer, hstep, h'⟩
      exact ⟨timerStep_inside hs.room hstep, (timerStep_indexed_iff hs h htimer hstep).mp h'⟩
    · rintro ⟨hinside, hplaces⟩
      obtain ⟨t', answer, hstep, -⟩ := timerStep_does call hinside
      exact ⟨t', answer, hstep, (timerStep_indexed_iff hs h htimer hstep).mpr hplaces⟩
  · exact Stored.new
  · exact Indexed.new
  · exact htimers

/-- Of four timers one is put off, the last one run, nothing expires, and then all three do. -/
theorem indexed_of_eight : (timer Nat).Always Indexed new
    [.addTimer (quietEnv 0) 1 100 11, .addTimer (quietEnv 0) 2 200 12,
     .addTimer (quietEnv 0) 3 150 13, .addTimer (quietEnv 0) 4 400 14,
     .adjustTimer (quietEnv 0) 3 300, .doRightNow (quietEnv 0) 4,
     .nextTickTime (fun _ => quietEnv 0) (quietEnv 0), .tick fun _ => quietEnv 500000000] :=
  (indexed_iff_keepsIndex (by decide +kernel)).mpr (by decide +kernel)

/-- Two timers; when the first is run, the second takes its place, and keeps its index. -/
theorem doRightNow_leaves_index : ∃ t answers, (timer Nat).run
    [.addTimer (quietEnv 0) 1 100 11, .addTimer (quietEnv 0) 2 200 12,
     .doRightNow (quietEnv 0) 1] = some (t, answers) ∧ ¬ t.Indexed := by
  have hrun : ((timer Nat).run
      [.addTimer (quietEnv 0) 1 100 11, .addTimer (quietEnv 0) 2 200 12,
       .doRightNow (quietEnv 0) 1]).map (fun r => (r.1.fdHeapMap 2, r.1.heap.length)) =
        some (some 1, 1) := by
    decide +kernel
  obtain ⟨⟨t, answers⟩, hrun, hends⟩ := Option.map_eq_some_iff.mp hrun
  obtain ⟨hentry, hlength⟩ := Prod.mk.inj hends
  refine ⟨t, answers, hrun, ?_⟩
  intro h
  have hbound := h.lt_length hentry
  rw [hlength] at hbound
  exact lt_irrefl 1 hbound

end HeapTimer

end WhiteWebServer
