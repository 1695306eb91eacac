import Mathlib.Order.Interval.Finset.Basic
import Mathlib.Data.Int.Interval
import WhiteWebServer.HeapTimer
import WhiteWebServer.Lib.Outcome

/-!
# Faults of the timer

A call that stays in the heap is made. Here the converse: as long as descriptors are ints the
heap ends long before `heap_[2^63 - 1]`, and a call that is made has stayed in the heap. What such
a call does is then all that it does. The last section is about the nodes and entries that sifting
leaves alone.
-/

namespace WhiteWebServer

open HeapOrder Outcome

namespace HeapTimer

variable {C : Type} {t t' : HeapTimer C}

/-! ## What is stored -/

/-- The values of `int` -/
def IsInt (fd : Int) : Prop := -2 ^ 31 ≤ fd ∧ fd < 2 ^ 31

/-- The descriptor of a node is an `int`. -/
def IntFd (_ : HeapTimer C) : TimerCall C → Prop
  | .addTimer _ fd _ _ => IsInt fd
  | _ => True

instance (fd : Int) : Decidable (IsInt fd) := inferInstanceAs (Decidable (_ ∧ _))

instance (t : HeapTimer C) : ∀ call, Decidable (t.IntFd call)
  | .addTimer _ fd _ _ => inferInstanceAs (Decidable (IsInt fd))
  | .adjustTimer _ _ _ => isTrue trivial
  | .doRightNow _ _ => isTrue trivial
  | .tick _ => isTrue trivial
  | .nextTickTime _ _ => isTrue trivial
  | .clear => isTrue trivial

/-- No descriptor has two nodes, and each node can be found through the map. -/
structure Stored (t : HeapTimer C) : Prop where
  keyed : t.Keyed
  nodup : (t.heap.map TimerNode.fd).Nodup
  ints : ∀ fd ∈ t.heap.map TimerNode.fd, IsInt fd

theorem keyed_iff : t.Keyed ↔ ∀ fd ∈ t.heap.map TimerNode.fd, (t.fdHeapMap fd).isSome := by
  rw [List.forall_mem_map]
  exact Iff.rfl

theorem set_fd {index : Nat} {node : TimerNode C} (hi : index < t.heap.length)
    (hfd : node.fd = t.heap[index].fd) :
    (t.heap.set index node).map TimerNode.fd = t.heap.map TimerNode.fd := by
  apply List.ext_getElem?
  intro k
  rw [List.getElem?_map, List.getElem?_map]
  by_cases hk : index = k
  · subst hk
    rw [List.getElem?_set_self hi, List.getElem?_eq_getElem hi, Option.map_some, hfd]
    rfl
  · rw [List.getElem?_set_ne hk]

namespace Stored

theorem new : Stored (HeapTimer.new : HeapTimer C) := by
  constructor
  case keyed =>
    intro node hmem
    cases hmem
  case nodup => exact List.nodup_nil
  case ints =>
    intro fd hmem
    cases hmem

theorem length_le (h : Stored t) : t.heap.length ≤ 2 ^ 32 := by
  have hsub : (t.heap.map TimerNode.fd).toFinset ⊆ Finset.Ico (-2 ^ 31 : Int) (2 ^ 31) := by
    intro fd hfd
    exact Finset.mem_Ico.mpr (h.ints fd (List.mem_toFinset.mp hfd))
  have hcard := Finset.card_le_card hsub
  rw [List.toFinset_card_of_nodup h.nodup, List.length_map, Int.card_Ico] at hcard
  exact hcard

/-- There is room for one more node in front of `heap_[2^63 - 1]`. -/
theorem room (h : Stored t) : t.heap.length + 1 < 2 ^ 63 :=
  lt_of_le_of_lt (Nat.succ_le_succ h.length_le) (by decide)

theorem rewritten (h : Stored t) {index : Nat} {node : TimerNode C} (hi : index < t.heap.length)
    (hr : Rewritten index node t t') (hfd : node.fd = t.heap[index].fd) : Stored t' := by
  have hfds : (t'.heap.map TimerNode.fd).Perm (t.heap.map TimerNode.fd) :=
    (hr.perm.map TimerNode.fd).trans (List.Perm.of_eq (set_fd hi hfd))
  have hsome : (t.fdHeapMap node.fd).isSome := by
    rw [hfd]
    exact h.keyed _ (List.getElem_mem hi)
  constructor
  case keyed =>
    apply keyed_iff.mpr
    intro fd hmem
    rw [hr.keys hsome h.keyed]
    exact keyed_iff.mp h.keyed fd (hfds.subset hmem)
  case nodup => exact hfds.nodup_iff.mpr h.nodup
  case ints => exact fun fd hmem => h.ints fd (hfds.subset hmem)

theorem pushed (h : Stored t) {node : TimerNode C} (hp : Pushed node t t')
    (hnone : t.fdHeapMap node.fd = none) (hint : IsInt node.fd) : Stored t' := by
  have hfds : (t'.heap.map TimerNode.fd).Perm (node.fd :: t.heap.map TimerNode.fd) := by
    have hperm := (hp.perm.trans (List.perm_append_singleton _ _)).map TimerNode.fd
    rwa [List.map_cons] at hperm
  constructor
  case keyed =>
    apply keyed_iff.mpr
    intro fd hmem
    rw [hp.keys h.keyed]
    rcases List.mem_cons.mp (hfds.subset hmem) with rfl | hold
    · rw [decide_eq_true rfl, Bool.true_or]
    · rw [keyed_iff.mp h.keyed fd hold, Bool.or_true]
  case nodup =>
    apply hfds.nodup_iff.mpr
    apply List.nodup_cons.mpr
    refine ⟨?_, h.nodup⟩
    intro hmem
    have hkey := keyed_iff.mp h.keyed _ hmem
    rw [hnone] at hkey
    cases hkey
  case ints =>
    intro fd hmem
    rcases List.mem_cons.mp (hfds.subset hmem) with rfl | hold
    · exact hint
    · exact h.ints fd hold

theorem deleted (h : Stored t) {node : TimerNode C} (hd : Deleted node t t') : Stored t' := by
  have hfds : (t.heap.map TimerNode.fd).Perm (node.fd :: t'.heap.map TimerNode.fd) :=
    hd.perm.map TimerNode.fd
  obtain ⟨hnot, hnodup⟩ := List.nodup_cons.mp (hfds.nodup_iff.mp h.nodup)
  have hold : ∀ fd ∈ t'.heap.map TimerNode.fd, fd ∈ t.heap.map TimerNode.fd :=
    fun fd hmem => hfds.symm.subset (List.mem_cons_of_mem _ hmem)
  constructor
  case keyed =>
    apply keyed_iff.mpr
    intro fd hmem
    have hne : fd ≠ node.fd := by
      rintro rfl
      exact hnot hmem
    rw [hd.keys h.nodup h.keyed, decide_eq_true hne, Bool.true_and]
    exact keyed_iff.mp h.keyed fd (hold fd hmem)
  case nodup => exact hnodup
  case ints => exact fun fd hmem => h.ints fd (hold fd hmem)

theorem touched (h : Stored t) (fd : Int) : Stored (t.touchIndex fd) := by
  constructor
  case keyed =>
    intro node hmem
    by_cases hfd : node.fd = fd
    · simp only [touchIndex, hfd, Function.update_self, Option.isSome_some]
    · simp only [touchIndex, Function.update_of_ne hfd]
      exact h.keyed node hmem
  case nodup => exact h.nodup
  case ints => exact h.ints

theorem ticks {envs : Nat → TimerEnv} {turn : Nat} {nodes : List (TimerNode C)}
    (hticks : Ticks envs turn t nodes t') (h : Stored t) : Stored t' := by
  induction hticks with
  | stop _ => exact h
  | fire _ _ hdeleted _ ih => exact ih (h.deleted hdeleted)

end Stored

theorem Does.stored {call : TimerCall C} {answer : TimerAnswer C} (hdoes : t.Does call answer t')
    (hint : t.IntFd call) (h : Stored t) : Stored t' := by
  cases call with
  | addTimer env fd timeout cb =>
      rcases hdoes.2 with ⟨index, hi, -, hrewritten⟩ | ⟨hmap, hpushed⟩
      · exact h.rewritten hi hrewritten rfl
      · exact h.pushed hpushed hmap hint
  | adjustTimer env fd timeout =>
      obtain ⟨-, hi, hrewritten⟩ := hdoes
      exact (h.touched fd).rewritten hi hrewritten rfl
  | doRightNow env fd =>
      rcases hdoes with ⟨index, hi, -, -, hdeleted⟩ | ⟨-, -, rfl⟩
      · exact h.deleted hdeleted
      · exact h
  | tick envs =>
      obtain ⟨nodes, -, hticks⟩ := hdoes
      exact Stored.ticks hticks h
  | nextTickTime envs env =>
      obtain ⟨nodes, -, hticks⟩ := hdoes
      exact Stored.ticks hticks h
  | clear =>
      obtain ⟨-, rfl⟩ := hdoes
      exact Stored.new

/-! ## Calls that are made -/

theorem swapHeap_inside {i j : Nat} (h : t.swapHeap i j = .ok t') :
    i < t.heap.length ∧ j < t.heap.length := by
  unfold swapHeap at h
  by_cases hi : i < t.heap.length
  · by_cases hj : j < t.heap.length
    · exact ⟨hi, hj⟩
    · rw [List.getElem?_eq_none (not_lt.mp hj)] at h
      cases hget : t.heap[i]? <;> rw [hget] at h <;> cases h
  · rw [List.getElem?_eq_none (not_lt.mp hi)] at h
    cases h

theorem writeNode_inside {index : Nat} {write : TimerNode C → TimerNode C}
    (h : t.writeNode index write = .ok t') : index < t.heap.length := by
  by_contra hout
  rw [writeNode, List.getElem?_eq_none (not_lt.mp hout)] at h
  cases h

/-- Where the first comparison reads outside of the heap and does not end the loop, the exchange
behind it faults. -/
theorem percolateUp_quiet {env : TimerEnv} {index : Nat} (hlen : t.heap.length < 2 ^ 63)
    (h : t.percolateUp env index = .ok t') : t.QuietUp env index := by
  intro hout hpos
  rw [percolateUp, percolateUpLoop, if_pos hpos] at h
  cases hless : t.less env (parentNode index) index with
  | error e =>
      rw [hless] at h
      cases h
  | ok less =>
      cases less with
      | true => rfl
      | false =>
          rw [hless] at h
          obtain ⟨t₁, hswap, -⟩ := (bind_eq_ok (α := HeapTimer C)).mp h
          obtain ⟨hparent, hindex⟩ := swapHeap_inside hswap
          rcases hout with rfl | hout
          · have hroot : parentNode 0 = 2 ^ 63 - 1 := rfl
            rw [hroot] at hparent
            omega
          · exact absurd hindex (not_lt.mpr hout)

theorem upOrDown_quiet {env : TimerEnv} {index : Nat} (hlen : t.heap.length < 2 ^ 63)
    (h : t.upOrDown env index = .ok t') : t.Quiet env index := by
  intro hup
  rw [upOrDown, hup] at h
  exact percolateUp_quiet hlen h

theorem rewrite_quiet {env : TimerEnv} {index : Nat} {write : TimerNode C → TimerNode C}
    (hlen : t.heap.length < 2 ^ 63)
    (h : (t.writeNode index write >>= fun t₁ => t₁.upOrDown env index) = .ok t') :
    index < t.heap.length ∧ t.QuietWrite env index write := by
  obtain ⟨t₁, hwrite, hsift⟩ := bind_eq_ok.mp h
  have hi := writeNode_inside hwrite
  refine ⟨hi, ?_⟩
  intro t₂ hwrite'
  obtain rfl := Except.ok.inj (hwrite.symm.trans hwrite')
  apply upOrDown_quiet _ hsift
  rw [writeNode_eq hi] at hwrite
  obtain rfl := Except.ok.inj hwrite
  rw [List.length_set]
  exact hlen

theorem deleteNode_quiet {env : TimerEnv} {index : Nat} (hlen : t.heap.length < 2 ^ 63)
    (h : t.deleteNode env index = .ok t') : index < t.heap.length ∧ t.QuietDelete env index := by
  obtain ⟨t₁, htake, hsift⟩ := bind_eq_ok.mp h
  have hi : index < t.heap.length := by
    obtain ⟨t₂, hswap, -⟩ := bind_eq_ok.mp htake
    obtain ⟨t₃, hheap, -⟩ := bind_eq_ok.mp hswap
    exact (swapHeap_inside hheap).1
  refine ⟨hi, ?_⟩
  intro t₂ htake'
  obtain rfl := Except.ok.inj (htake.symm.trans htake')
  obtain ⟨t₃, htake'', -, -, hlen', -⟩ := takeOut_spec hi
  obtain rfl := Except.ok.inj (htake.symm.trans htake'')
  apply upOrDown_quiet _ hsift
  rw [hlen']
  exact lt_of_le_of_lt (Nat.sub_le _ _) hlen

/-- A turn of `Tick` ends it where there is no root that has expired, or removes the root. -/
theorem tickLoop_turn {envs : Nat → TimerEnv} {fuel turn : Nat} {fired : List C}
    (hlen : t.heap.length < 2 ^ 63)
    (h : tickLoop envs (fuel + 1) turn t = .ok (t', fired)) :
    ((∀ node, t.heap.head? = some node → 0 < node.remaining (envs turn)) ∧ t' = t) ∨
    ∃ node t₁ fired', t.heap.head? = some node ∧ node.remaining (envs turn) ≤ 0 ∧
      t.QuietDelete (envs turn) 0 ∧ t.deleteNode (envs turn) 0 = .ok t₁ ∧ Deleted node t t₁ ∧
      tickLoop envs fuel (turn + 1) t₁ = .ok (t', fired') := by
  rw [tickLoop] at h
  cases hheap : t.heap with
  | nil =>
      rw [hheap] at h
      left
      refine ⟨?_, (congrArg Prod.fst (Except.ok.inj h)).symm⟩
      intro node hhead
      cases hhead
  | cons root rest =>
      rw [hheap] at h
      by_cases hremaining : 0 < root.remaining (envs turn)
      · simp only [if_pos hremaining] at h
        left
        refine ⟨?_, (congrArg Prod.fst (Except.ok.inj h)).symm⟩
        intro node hhead
        obtain rfl := Option.some.inj hhead
        exact hremaining
      · simp only [if_neg hremaining] at h
        obtain ⟨t₁, hdelete, hloop⟩ := bind_eq_ok.mp h
        obtain ⟨hi, hquiet⟩ := deleteNode_quiet hlen hdelete
        obtain ⟨t₂, hdelete', hdeleted⟩ := deleteNode_spec (envs turn) hi hquiet
        obtain rfl := Except.ok.inj (hdelete.symm.trans hdelete')
        have hroot : t.heap[0] = root := by
          have hget : t.heap[0]? = some root := by rw [hheap]; rfl
          rw [List.getElem?_eq_getElem hi] at hget
          exact Option.some.inj hget
        rw [hroot] at hdeleted
        right
        cases hrest : tickLoop envs fuel (turn + 1) t₁ with
        | error e =>
            rw [hrest] at hloop
            cases hloop
        | ok r =>
            rw [hrest] at hloop
            obtain ⟨rfl, -⟩ := Prod.mk.inj (Except.ok.inj hloop)
            exact ⟨root, t₁, r.2, rfl, not_lt.mp hremaining, hquiet, hdelete, hdeleted, hrest⟩

theorem tickLoop_quiet {envs : Nat → TimerEnv} :
    ∀ {fuel turn : Nat} {t t' : HeapTimer C} {fired : List C}, t.heap.length < 2 ^ 63 →
      tickLoop envs fuel turn t = .ok (t', fired) → QuietTickLoop envs fuel turn t := by
  intro fuel
  induction fuel with
  | zero => exact fun _ _ => trivial
  | succ fuel ih =>
      intro turn t t' fired hlen h node hhead hremaining
      rcases tickLoop_turn hlen h with
        ⟨hstop, -⟩ | ⟨root, t₁, fired', -, -, hquiet, hdelete, hdeleted, hloop⟩
      · exact absurd (hstop node hhead) hremaining
      · refine ⟨hquiet, ?_⟩
        intro t₂ hdelete'
        obtain rfl := Except.ok.inj (hdelete.symm.trans hdelete')
        exact ih (lt_trans hdeleted.length_lt hlen) hloop

/-- A call that is made has stayed in the heap. -/
theorem timerStep_inside {call : TimerCall C} {answer : TimerAnswer C}
    (hlen : t.heap.length + 1 < 2 ^ 63) (h : timerStep t call = some (t', answer)) :
    t.StaysInside call := by
  have hlen' : t.heap.length < 2 ^ 63 := Nat.lt_of_succ_lt hlen
  cases call with
  | addTimer env fd timeout cb =>
      obtain ⟨t₁, hok, -⟩ := toOption_map_eq_some h
      rw [addTimer] at hok
      cases hmap : t.fdHeapMap fd with
      | some index =>
          rw [hmap] at hok
          simp only [StaysInside, hmap]
          exact rewrite_quiet hlen' hok
      | none =>
          rw [hmap] at hok
          simp only [StaysInside, hmap]
          apply percolateUp_quiet _ hok
          rw [pushNode, List.length_append]
          exact hlen
  | adjustTimer env fd timeout =>
      obtain ⟨t₁, hok, -⟩ := toOption_map_eq_some h
      exact @rewrite_quiet C (t.touchIndex fd) _ _ _ _ hlen' hok
  | doRightNow env fd =>
      obtain ⟨r, hok, -⟩ := toOption_map_eq_some h
      rw [doRightNow] at hok
      cases hmap : t.fdHeapMap fd with
      | none => simp only [StaysInside, hmap]
      | some index =>
          simp only [StaysInside, hmap]
          rw [hmap] at hok
          cases hget : t.heap[index]? with
          | none =>
              simp only [hget] at hok
              cases hok
          | some node =>
              simp only [hget] at hok
              obtain ⟨t₁, hdelete, -⟩ := bind_eq_ok.mp hok
              exact deleteNode_quiet hlen' hdelete
  | tick envs =>
      obtain ⟨r, hok, -⟩ := toOption_map_eq_some h
      exact tickLoop_quiet hlen' hok
  | nextTickTime envs env =>
      obtain ⟨r, hok, -⟩ := toOption_map_eq_some h
      cases htick : t.tick envs with
      | error e =>
          rw [nextTickTime, htick] at hok
          cases hok
      | ok r => exact tickLoop_quiet hlen' htick
  | clear => trivial

/-- **A call is made exactly where it stays in the heap**, and then does what it does there. -/
theorem timerStep_made {call : TimerCall C} {answer : TimerAnswer C} (h : Stored t)
    (hstep : timerStep t call = some (t', answer)) :
    t.StaysInside call ∧ t.Does call answer t' := by
  have hinside := timerStep_inside h.room hstep
  obtain ⟨t₁, answer₁, hstep', hdoes⟩ := timerStep_does call hinside
  obtain ⟨rfl, rfl⟩ := Prod.mk.inj (Option.some.inj (hstep.symm.trans hstep'))
  exact ⟨hinside, hdoes⟩

theorem timerStep_stored {call : TimerCall C} {answer : TimerAnswer C} (h : Stored t)
    (hint : t.IntFd call) (hstep : timerStep t call = some (t', answer)) : Stored t' :=
  (timerStep_made h hstep).2.stored hint h

/-! ## What sifting leaves alone -/

/-- `PercolateUp` moves nodes between the root and the index, both left out, and no entry. -/
theorem percolateUpLoop_frame {env : TimerEnv} :
    ∀ {fuel index : Nat} {t t' : HeapTimer C}, 0 < index →
      percolateUpLoop env fuel index t = .ok t' →
      t'.fdHeapMap = t.fdHeapMap ∧ ∀ k, k = 0 ∨ index < k → t'.heap[k]? = t.heap[k]? := by
  intro fuel
  induction fuel with
  | zero =>
      intro index t t' _ h
      obtain rfl := Except.ok.inj h
      exact ⟨rfl, fun _ _ => rfl⟩
  | succ fuel ih =>
      intro index t t' hpos h
      rw [percolateUpLoop, parentNode_eq hpos] at h
      by_cases hparent : 0 < parent index
      · rw [if_pos hparent] at h
        cases hless : t.less env (parent index) index with
        | error e =>
            rw [hless] at h
            cases h
        | ok less =>
            rw [hless] at h
            cases less with
            | true =>
                obtain rfl := Except.ok.inj h
                exact ⟨rfl, fun _ _ => rfl⟩
            | false =>
                obtain ⟨t₁, hswap, hloop⟩ := (bind_eq_ok (α := HeapTimer C)).mp h
                obtain ⟨hp, hi⟩ := swapHeap_inside hswap
                obtain ⟨t₂, hok, hmap, -, hget⟩ := swapHeap_spec hp hi
                obtain rfl := Except.ok.inj (hswap.symm.trans hok)
                obtain ⟨hmap', hget'⟩ := ih hparent hloop
                refine ⟨hmap'.trans hmap, ?_⟩
                intro k hk
                have hlt : parent index < index := parent_lt hpos
                rw [hget' k (hk.imp_right (lt_trans hlt)), hget, Equiv.swap_apply_of_ne_of_ne]
                · rcases hk with rfl | hk
                  · exact ne_of_lt hparent
                  · exact ne_of_gt (lt_trans hlt hk)
                · rcases hk with rfl | hk
                  · exact ne_of_lt hpos
                  · exact ne_of_gt hk
      · rw [if_neg hparent] at h
        obtain rfl := Except.ok.inj h
        exact ⟨rfl, fun _ _ => rfl⟩

theorem percolateDown_sifted {env : TimerEnv} {index : Nat}
    (h : t.percolateDown env index = .ok t') : Sifted index t t' := by
  obtain ⟨t₁, hloop, -, hsifted, -⟩ := percolateDownLoop_sifts index t
  obtain rfl := Except.ok.inj (h.symm.trans (hloop env _ (Nat.le_add_left _ _)))
  exact hsifted

/-- From below the root the root is not moved. -/
theorem upOrDown_root {env : TimerEnv} {index : Nat} (hpos : 0 < index)
    (h : t.upOrDown env index = .ok t') : t'.heap[0]? = t.heap[0]? := by
  rcases upOrDown_cases env index t with ⟨-, hcase, -⟩ | ⟨hcase, -⟩
  · exact (percolateUpLoop_frame hpos (hcase.symm.trans h)).2 0 (Or.inl rfl)
  · apply (percolateDown_sifted (hcase.symm.trans h)).outside
    intro hunder
    exact absurd hpos (not_lt.mpr hunder.le)

end HeapTimer

end WhiteWebServer
