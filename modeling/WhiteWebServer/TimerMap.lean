import WhiteWebServer.HeapTimer

/-!
# The timer as a map

What the calls mean for a map from descriptors to (deadline, callback), and
when `HeapTimer` does that. The nodes always agree with the keys of
`fd_heap_map_`; its indices go stale, since `PercolateUp` does not touch them
and `SwapNode` exchanges them the wrong way round. A call that finds its
descriptor through the map needs the index to be right.
-/

namespace WhiteWebServer

open HeapTimer

variable {C : Type}

/-- The deadline and the callback of each descriptor that has a timer. -/
abbrev TimerMap (C : Type) := Int → Option (Int × C)

/-- Entries that have expired are removed, the callback of each run once. -/
def Expires (envs : Nat → TimerEnv) (m : TimerMap C) (fired : List C) (m' : TimerMap C) : Prop :=
  ∃ nodes : List (TimerNode C), fired = nodes.map TimerNode.cb ∧
    (nodes.map TimerNode.fd).Nodup ∧
    (∀ node ∈ nodes, m node.fd = some (node.expires, node.cb)) ∧
    (∀ turn (node : TimerNode C), nodes[turn]? = some node → node.remaining (envs turn) ≤ 0) ∧
    ∀ fd, m' fd = if fd ∈ nodes.map TimerNode.fd then none else m fd

/-- What the calls are for. -/
def MapStep : TimerMap C → TimerCall C → TimerAnswer C → TimerMap C → Prop
  | m, .addTimer env fd timeout cb, answer, m' =>
      answer.fired = [] ∧ m' = Function.update m fd (some (deadline env timeout, cb))
  | m, .adjustTimer env fd timeout, answer, m' =>
      answer.fired = [] ∧
        m' = Function.update m fd ((m fd).map fun entry => (deadline env timeout, entry.2))
  | m, .doRightNow _ fd, answer, m' =>
      answer.fired = ((m fd).map Prod.snd).toList ∧ m' = Function.update m fd none
  | m, .tick envs, answer, m' => Expires envs m answer.fired m'
  | m, .nextTickTime envs _, answer, m' => Expires envs m answer.fired m'
  | _, .clear, answer, m' => answer.fired = [] ∧ m' = fun _ => none

namespace HeapTimer

/-! ## The condition -/

/-- The node at `index` is that of `fd`. -/
def HeldAt (fd : Int) (index : Nat) (t : HeapTimer C) : Prop :=
  t.heap[index]?.map TimerNode.fd = some fd

/-- The index the map gives is that of the node; `AdjustTimer` needs one to be there. -/
def IndexRight (t : HeapTimer C) : TimerCall C → Prop
  | .addTimer _ fd _ _ => ∀ index, t.fdHeapMap fd = some index → t.HeldAt fd index
  | .adjustTimer _ fd _ => (t.fdHeapMap fd).isSome ∧ t.HeldAt fd (t.indexOf fd)
  | .doRightNow _ fd => ∀ index, t.fdHeapMap fd = some index → t.HeldAt fd index
  | _ => True

/-- The call finds the node of its descriptor, where it looks for one, and stays in
the heap. -/
def FindsNode (t : HeapTimer C) (call : TimerCall C) : Prop :=
  t.StaysInside call ∧ t.IndexRight call

instance (fd : Int) (index : Nat) (t : HeapTimer C) : Decidable (t.HeldAt fd index) := by
  unfold HeldAt
  infer_instance

instance (t : HeapTimer C) (fd : Int) :
    Decidable (∀ index, t.fdHeapMap fd = some index → t.HeldAt fd index) :=
  match hmap : t.fdHeapMap fd with
  | some index => decidable_of_iff (t.HeldAt fd index) (by simp)
  | none => isTrue (by simp)

instance (t : HeapTimer C) : ∀ call, Decidable (t.IndexRight call)
  | .addTimer _ fd _ _ =>
      inferInstanceAs (Decidable (∀ index, t.fdHeapMap fd = some index → t.HeldAt fd index))
  | .adjustTimer _ _ _ => inferInstanceAs (Decidable (_ ∧ _))
  | .doRightNow _ fd =>
      inferInstanceAs (Decidable (∀ index, t.fdHeapMap fd = some index → t.HeldAt fd index))
  | .tick _ => isTrue trivial
  | .nextTickTime _ _ => isTrue trivial
  | .clear => isTrue trivial

instance (t : HeapTimer C) (call : TimerCall C) : Decidable (t.FindsNode call) :=
  inferInstanceAs (Decidable (_ ∧ _))

/-! ## What the timer stands for -/

structure Represents (t : HeapTimer C) (m : TimerMap C) : Prop where
  nodup : (t.heap.map TimerNode.fd).Nodup
  nodes : ∀ node, node ∈ t.heap ↔ m node.fd = some (node.expires, node.cb)
  keys : ∀ fd, (t.fdHeapMap fd).isSome = (m fd).isSome

theorem not_mem_of_fd {nodes : List (TimerNode C)} {node node' : TimerNode C}
    (hnot : node.fd ∉ nodes.map TimerNode.fd) (hfd : node'.fd = node.fd) : node' ∉ nodes := by
  intro hmem
  apply hnot
  rw [← hfd]
  exact List.mem_map_of_mem hmem

namespace Represents

variable {t t' : HeapTimer C} {m : TimerMap C} {node : TimerNode C}

theorem keyed (h : Represents t m) : t.Keyed := by
  intro node hnode
  rw [h.keys, (h.nodes node).mp hnode]
  rfl

theorem new_clear : Represents (new : HeapTimer C) fun _ => none := by
  constructor
  case nodup => exact List.nodup_nil
  case nodes =>
    intro node
    constructor
    · intro hmem
      cases hmem
    · intro hnone
      cases hnone
  case keys =>
    intro fd
    rfl

theorem deleted (h : Represents t m) (hd : Deleted node t t') :
    Represents t' (Function.update m node.fd none) := by
  have hnodup : (node.fd :: t'.heap.map TimerNode.fd).Nodup :=
    (hd.perm.map TimerNode.fd).nodup_iff.mp h.nodup
  constructor
  case nodup => exact (List.nodup_cons.mp hnodup).2
  case nodes =>
    intro node'
    by_cases hfd : node'.fd = node.fd
    · rw [hfd, Function.update_self]
      constructor
      · intro hmem
        exact absurd hmem (not_mem_of_fd (List.nodup_cons.mp hnodup).1 hfd)
      · intro hnone
        cases hnone
    · rw [Function.update_of_ne hfd, ← h.nodes, hd.perm.mem_iff, List.mem_cons]
      constructor
      · exact Or.inr
      · rintro (rfl | hmem)
        · exact absurd rfl hfd
        · exact hmem
  case keys =>
    intro fd
    rw [hd.keys h.nodup h.keyed]
    by_cases hfd : fd = node.fd
    · rw [hfd, Function.update_self, decide_eq_false (fun hne => hne rfl)]
      rfl
    · rw [Function.update_of_ne hfd, decide_eq_true hfd, Bool.true_and, h.keys]

/-- Where a node replaces those of its descriptor, its entry is overwritten. -/
theorem updated (h : Represents t m) {rest : List (TimerNode C)}
    (hperm : t'.heap.Perm (node :: rest)) (hnodup : (node.fd :: rest.map TimerNode.fd).Nodup)
    (hrest : ∀ node', node'.fd ≠ node.fd → (node' ∈ rest ↔ node' ∈ t.heap))
    (hkeys : ∀ fd, (t'.fdHeapMap fd).isSome = (decide (fd = node.fd) || (t.fdHeapMap fd).isSome)) :
    Represents t' (Function.update m node.fd (some (node.expires, node.cb))) := by
  constructor
  case nodup => exact (hperm.map TimerNode.fd).nodup_iff.mpr hnodup
  case nodes =>
    intro node'
    rw [hperm.mem_iff, List.mem_cons]
    by_cases hfd : node'.fd = node.fd
    · rw [hfd, Function.update_self]
      constructor
      · rintro (rfl | hmem)
        · rfl
        · exact absurd hmem (not_mem_of_fd (List.nodup_cons.mp hnodup).1 hfd)
      · intro heq
        left
        rcases node with ⟨fd, expires, cb⟩
        rcases node' with ⟨fd', expires', cb'⟩
        simp only [Option.some.injEq, Prod.mk.injEq] at heq hfd
        rw [hfd, heq.1, heq.2]
    · rw [Function.update_of_ne hfd, hrest node' hfd, ← h.nodes]
      constructor
      · rintro (rfl | hmem)
        · exact absurd rfl hfd
        · exact hmem
      · exact Or.inr
  case keys =>
    intro fd
    rw [hkeys]
    by_cases hfd : fd = node.fd
    · rw [hfd, Function.update_self, decide_eq_true rfl]
      rfl
    · rw [Function.update_of_ne hfd, decide_eq_false hfd, Bool.false_or, h.keys]

theorem rewritten (h : Represents t m) {index : Nat} {fd : Int} (hi : index < t.heap.length)
    (hr : Rewritten index node t t') (hfd : t.heap[index].fd = fd) (hnode : node.fd = fd) :
    Represents t' (Function.update m fd (some (node.expires, node.cb))) := by
  subst hnode
  have hperm : t'.heap.Perm (node :: t.heap.eraseIdx index) :=
    hr.perm.trans (List.set_perm_cons_eraseIdx hi node)
  have hold : t.heap.Perm (t.heap[index] :: t.heap.eraseIdx index) :=
    (List.getElem_cons_eraseIdx_perm hi).symm
  have hsome : (t.fdHeapMap node.fd).isSome := by
    rw [← hfd]
    exact h.keyed _ (List.getElem_mem hi)
  apply h.updated hperm
  · rw [← hfd]
    exact (hold.map TimerNode.fd).nodup_iff.mp h.nodup
  · intro node' hne
    rw [hold.mem_iff, List.mem_cons]
    constructor
    · exact Or.inr
    · rintro (rfl | hmem)
      · exact absurd hfd hne
      · exact hmem
  · intro fd
    rw [hr.keys hsome h.keyed]
    by_cases heq : fd = node.fd
    · rw [heq, hsome, decide_eq_true rfl]
      rfl
    · rw [decide_eq_false heq, Bool.false_or]

theorem pushed (h : Represents t m) (hnone : t.fdHeapMap node.fd = none)
    (hp : Pushed node t t') :
    Represents t' (Function.update m node.fd (some (node.expires, node.cb))) := by
  refine h.updated (hp.perm.trans (List.perm_append_singleton _ _)) ?_ (fun _ _ => Iff.rfl)
    (hp.keys h.keyed)
  apply List.nodup_cons.mpr
  refine ⟨?_, h.nodup⟩
  intro hmem
  obtain ⟨node', hnode', hfd⟩ := List.mem_map.mp hmem
  have hkey := h.keyed node' hnode'
  rw [hfd, hnone] at hkey
  cases hkey

/-- The turns of `Tick` remove entries that have expired. -/
theorem ticks {envs : Nat → TimerEnv} {turn : Nat} {nodes : List (TimerNode C)}
    (hticks : Ticks envs turn t nodes t') (h : Represents t m) :
    ∃ m', Represents t' m' ∧
      Expires (fun i => envs (turn + i)) m (nodes.map TimerNode.cb) m' := by
  induction hticks generalizing m with
  | stop _ =>
      refine ⟨m, h, [], rfl, List.nodup_nil, ?_, ?_, ?_⟩
      · intro node hmem
        cases hmem
      · intro i node hget
        cases hget
      · intro fd
        rfl
  | @fire turn t t₁ t' node nodes hhead hexpired hdeleted _ ih =>
      obtain ⟨m', hm', nodes', hcb, hnodup, hentry, hremaining, hrest⟩ := ih (h.deleted hdeleted)
      have hnode : m node.fd = some (node.expires, node.cb) :=
        (h.nodes node).mp (List.mem_of_mem_head? hhead)
      have hother : ∀ node' ∈ nodes', node'.fd ≠ node.fd := by
        intro node' hmem heq
        have hgone := hentry node' hmem
        rw [heq, Function.update_self] at hgone
        cases hgone
      refine ⟨m', hm', node :: nodes', ?_, ?_, ?_, ?_, ?_⟩
      · rw [List.map_cons, List.map_cons, hcb]
      · rw [List.map_cons, List.nodup_cons]
        refine ⟨?_, hnodup⟩
        intro hmem
        obtain ⟨node', hnode', hfd⟩ := List.mem_map.mp hmem
        exact hother node' hnode' hfd
      · intro node' hmem
        rcases List.mem_cons.mp hmem with rfl | hmem
        · exact hnode
        · have hgot := hentry node' hmem
          rwa [Function.update_of_ne (hother node' hmem)] at hgot
      · intro i node' hget
        cases i with
        | zero =>
            cases hget
            exact hexpired
        | succ i =>
            have hturn : turn + 1 + i = turn + (i + 1) := by omega
            show node'.remaining (envs (turn + (i + 1))) ≤ 0
            rw [← hturn]
            exact hremaining i node' hget
      · intro fd
        rw [hrest, List.map_cons]
        by_cases hmem : fd ∈ nodes'.map TimerNode.fd
        · rw [if_pos hmem, if_pos (List.mem_cons_of_mem _ hmem)]
        · rw [if_neg hmem]
          by_cases hfd : fd = node.fd
          · rw [hfd, Function.update_self, if_pos List.mem_cons_self]
          · rw [Function.update_of_ne hfd, if_neg]
            intro hcons
            rcases List.mem_cons.mp hcons with heq | hcons
            · exact hfd heq
            · exact hmem hcons

end Represents

/-! ## Calls -/

variable {t t' : HeapTimer C} {m : TimerMap C}

theorem HeldAt.fd_eq {fd : Int} {index : Nat} (h : t.HeldAt fd index)
    (hi : index < t.heap.length) : t.heap[index].fd = fd := by
  unfold HeldAt at h
  rw [List.getElem?_eq_getElem hi] at h
  exact Option.some.inj h

theorem Represents.entry (h : Represents t m) {fd : Int} {index : Nat}
    (hi : index < t.heap.length) (hfd : t.heap[index].fd = fd) :
    m fd = some (t.heap[index].expires, t.heap[index].cb) := by
  rw [← hfd]
  exact (h.nodes _).mp (List.getElem_mem hi)

theorem Represents.eq_none (h : Represents t m) {fd : Int} (hmap : t.fdHeapMap fd = none) :
    m fd = none := by
  have hkey := h.keys fd
  rw [hmap] at hkey
  exact Option.isNone_iff_eq_none.mp (Option.isSome_eq_false_iff.mp hkey.symm)

theorem touchIndex_eq {fd : Int} (hsome : (t.fdHeapMap fd).isSome) : t.touchIndex fd = t := by
  obtain ⟨index, hmap⟩ := Option.isSome_iff_exists.mp hsome
  unfold touchIndex indexOf
  rw [hmap, Option.getD_some, ← hmap, Function.update_eq_self]

/-- **One call.** With a right index it does to the map what it is for. -/
theorem Does.mapStep {call : TimerCall C} {answer : TimerAnswer C} (hdoes : t.Does call answer t')
    (hindex : t.IndexRight call) (h : Represents t m) :
    ∃ m', MapStep m call answer m' ∧ Represents t' m' := by
  cases call with
  | addTimer env fd timeout cb =>
      obtain ⟨rfl, hdoes⟩ := hdoes
      refine ⟨Function.update m fd (some (deadline env timeout, cb)), ⟨rfl, rfl⟩, ?_⟩
      rcases hdoes with ⟨index, hi, hmap, hrewritten⟩ | ⟨hmap, hpushed⟩
      · have hfd := (hindex index hmap).fd_eq hi
        exact h.rewritten hi hrewritten hfd hfd
      · exact h.pushed hmap hpushed
  | adjustTimer env fd timeout =>
      obtain ⟨rfl, hi, hrewritten⟩ := hdoes
      obtain ⟨hsome, hheld⟩ := hindex
      have hfd := hheld.fd_eq hi
      rw [touchIndex_eq hsome] at hrewritten
      refine ⟨Function.update m fd ((m fd).map fun entry => (deadline env timeout, entry.2)),
        ⟨rfl, rfl⟩, ?_⟩
      rw [h.entry hi hfd]
      exact h.rewritten hi hrewritten hfd hfd
  | doRightNow env fd =>
      rcases hdoes with ⟨index, hi, hmap, rfl, hdeleted⟩ | ⟨hmap, rfl, rfl⟩
      · have hfd := (hindex index hmap).fd_eq hi
        have hr := h.deleted hdeleted
        rw [hfd] at hr
        refine ⟨Function.update m fd none, ⟨?_, rfl⟩, hr⟩
        rw [h.entry hi hfd]
        rfl
      · have hnone := h.eq_none hmap
        refine ⟨m, ⟨?_, ?_⟩, h⟩
        · rw [hnone]
          rfl
        · rw [← hnone, Function.update_eq_self]
  | tick envs =>
      obtain ⟨nodes, rfl, hticks⟩ := hdoes
      obtain ⟨m', hm', hexpires⟩ := Represents.ticks hticks h
      simp only [Nat.zero_add] at hexpires
      exact ⟨m', hexpires, hm'⟩
  | nextTickTime envs env =>
      obtain ⟨nodes, rfl, hticks⟩ := hdoes
      obtain ⟨m', hm', hexpires⟩ := Represents.ticks hticks h
      simp only [Nat.zero_add] at hexpires
      exact ⟨m', hexpires, hm'⟩
  | clear =>
      obtain ⟨rfl, rfl⟩ := hdoes
      exact ⟨fun _ => none, ⟨rfl, rfl⟩, Represents.new_clear⟩

/-- A call that finds its node is made and refines the map. -/
theorem timerStep_refines (h : Represents t m) (call : TimerCall C) (hcall : t.FindsNode call) :
    ∃ t' answer m', timerStep t call = some (t', answer) ∧ MapStep m call answer m' ∧
      Represents t' m' := by
  obtain ⟨t', answer, hstep, hdoes⟩ := timerStep_does call hcall.1
  obtain ⟨m', hm', hr⟩ := hdoes.mapStep hcall.2 h
  exact ⟨t', answer, m', hstep, hm', hr⟩

/-- **The timer refines a map.** In every sequence of calls that find their nodes no
call faults, and each does to the map of descriptors what it is for. -/
theorem timer_refines_map {calls : List (TimerCall C)}
    (hsafe : (timer C).Meets FindsNode new calls) :
    ∃ t answers m, (timer C).run calls = some (t, answers) ∧
      Machine.Traces MapStep (fun _ => none) calls answers m ∧ Represents t m :=
  @Machine.exec_traces_of_meets _ _ _ _ (timer C) FindsNode MapStep Represents
    (fun _ _ call h hcall => timerStep_refines h call hcall) calls new _ Represents.new_clear hsafe

/-- The timer of 2 is put off and put forward again behind that of 1, the one of 1 run
and removed; then 2 expires. -/
theorem timer_refines_map_two :
    ∃ t answers m, (timer Nat).run
        [.addTimer (quietEnv 0) 1 100 11, .addTimer (quietEnv 0) 2 200 12,
         .adjustTimer (quietEnv 0) 2 300, .addTimer (quietEnv 0) 2 250 22,
         .doRightNow (quietEnv 0) 1, .nextTickTime (fun _ => quietEnv 250000000) (quietEnv 0)] =
          some (t, answers) ∧
      Machine.Traces MapStep (fun _ => none)
        [.addTimer (quietEnv 0) 1 100 11, .addTimer (quietEnv 0) 2 200 12,
         .adjustTimer (quietEnv 0) 2 300, .addTimer (quietEnv 0) 2 250 22,
         .doRightNow (quietEnv 0) 1, .nextTickTime (fun _ => quietEnv 250000000) (quietEnv 0)]
        answers m ∧ Represents t m :=
  timer_refines_map (by decide +kernel)

/-- Three timers; the one of 1 is run and removed. To run that of 2 then runs that of 3. -/
theorem doRightNow_runs_other :
    ∃ t answers, (timer Nat).run
        [.addTimer (quietEnv 0) 1 100 11, .addTimer (quietEnv 0) 2 200 12,
         .addTimer (quietEnv 0) 3 300 13, .doRightNow (quietEnv 0) 1,
         .doRightNow (quietEnv 0) 2] = some (t, answers) ∧
      ¬ ∃ m, Machine.Traces MapStep (fun _ => none)
        [.addTimer (quietEnv 0) 1 100 11, .addTimer (quietEnv 0) 2 200 12,
         .addTimer (quietEnv 0) 3 300 13, .doRightNow (quietEnv 0) 1,
         .doRightNow (quietEnv 0) 2] answers m := by
  have hrun : ((timer Nat).run
      [.addTimer (quietEnv 0) 1 100 11, .addTimer (quietEnv 0) 2 200 12,
       .addTimer (quietEnv 0) 3 300 13, .doRightNow (quietEnv 0) 1,
       .doRightNow (quietEnv 0) 2]).map (fun r => r.2.map TimerAnswer.fired) =
        some [[], [], [], [11], [13]] := by
    decide +kernel
  obtain ⟨⟨t, answers⟩, hrun, hanswers⟩ := Option.map_eq_some_iff.mp hrun
  refine ⟨t, answers, hrun, ?_⟩
  rintro ⟨m, htraces⟩
  rcases htraces with _ | ⟨⟨-, rfl⟩, htraces⟩
  rcases htraces with _ | ⟨⟨-, rfl⟩, htraces⟩
  rcases htraces with _ | ⟨⟨-, rfl⟩, htraces⟩
  rcases htraces with _ | ⟨⟨-, rfl⟩, htraces⟩
  rcases htraces with _ | ⟨⟨hfired, -⟩, -⟩
  simp only [List.map_cons, List.cons.injEq] at hanswers
  rw [hfired] at hanswers
  simp [Function.update] at hanswers

end HeapTimer

end WhiteWebServer
