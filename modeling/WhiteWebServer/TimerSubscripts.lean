import WhiteWebServer.TimerFaults

/-!
# The subscripts of the timer

Every subscript of `heap_` that a call evaluates, with the size `heap_` has then. Where all are
inside, the call is made and does not depend on what stands outside of the heap. `PercolateDown`
and `Check_up_or_down` stay inside; `PercolateUp` from the root looks at `heap_[2^63 - 1]`, and the
first node of an empty heap is put at the root.
-/

namespace WhiteWebServer

open HeapOrder

/-- A subscript of `heap_`, and `heap_.size()` where it is evaluated. -/
structure Subscript where
  index : Nat
  size : Nat
  deriving DecidableEq

def Subscript.Inside (s : Subscript) : Prop := s.index < s.size

instance (s : Subscript) : Decidable s.Inside := inferInstanceAs (Decidable (_ < _))

namespace HeapTimer

variable {C : Type} {t t' : HeapTimer C}

/-! ## What is evaluated -/

def subscript (t : HeapTimer C) (index : Nat) : Subscript := ⟨index, t.heap.length⟩

/-- What is evaluated behind something that has not faulted. -/
def behind {α : Type} (x : Except TimerFault α) (f : α → List Subscript) : List Subscript :=
  match x with
  | .ok a => f a
  | .error _ => []

/-- `heap_[node_1]` and `heap_[node_2]` -/
def pairSubscripts (node₁ node₂ : Nat) (t : HeapTimer C) : List Subscript :=
  [t.subscript node₁, t.subscript node₂]

/-- `node_1 < heap_.size() && heap_[node_1] < heap_[node_2]` -/
def lessInSubscripts (node₁ node₂ : Nat) (t : HeapTimer C) : List Subscript :=
  if node₁ < t.heap.length then t.pairSubscripts node₁ node₂ else []

/-- The swap, and the two descriptors behind it. -/
def swapNodeSubscripts (node₁ node₂ : Nat) (t : HeapTimer C) : List Subscript :=
  t.pairSubscripts node₁ node₂ ++ t.pairSubscripts node₁ node₂

def percolateUpLoopSubscripts (env : TimerEnv) : Nat → Nat → HeapTimer C → List Subscript
  | 0, _, _ => []
  | fuel + 1, index, t =>
      if 0 < parentNode index then
        t.pairSubscripts (parentNode index) index ++
          behind (t.less env (parentNode index) index) fun less =>
            if less then []
            else
              t.pairSubscripts (parentNode index) index ++
                behind (t.swapHeap (parentNode index) index)
                  (percolateUpLoopSubscripts env fuel (parentNode index))
      else []

def percolateUpSubscripts (env : TimerEnv) (index : Nat) (t : HeapTimer C) : List Subscript :=
  percolateUpLoopSubscripts env (index + 64) index t

def percolateDownLoopSubscripts (env : TimerEnv) : Nat → Nat → HeapTimer C → List Subscript
  | 0, _, _ => []
  | fuel + 1, index, t =>
      let childNode := 2 * index + 1
      if childNode < t.heap.length then
        t.lessInSubscripts (childNode + 1) childNode ++
          behind (t.lessIn env (childNode + 1) childNode) fun right =>
            let childNode := if right then childNode + 1 else childNode
            t.pairSubscripts index childNode ++
              behind (t.less env index childNode) fun less =>
                if less then []
                else
                  t.swapNodeSubscripts childNode index ++
                    behind (t.swapNode childNode index)
                      (percolateDownLoopSubscripts env fuel childNode)
      else []

def percolateDownSubscripts (env : TimerEnv) (index : Nat) (t : HeapTimer C) : List Subscript :=
  percolateDownLoopSubscripts env t.heap.length index t

def checkUpOrDownSubscripts (env : TimerEnv) (index : Nat) (t : HeapTimer C) : List Subscript :=
  let childNode := index * 2 + 1
  t.lessInSubscripts childNode index ++
    behind (t.lessIn env childNode index) fun left =>
      if left then [] else t.lessInSubscripts (childNode + 1) index

def upOrDownSubscripts (env : TimerEnv) (index : Nat) (t : HeapTimer C) : List Subscript :=
  t.checkUpOrDownSubscripts env index ++
    behind (t.checkUpOrDown env index) fun up =>
      if up then t.percolateUpSubscripts env index else t.percolateDownSubscripts env index

/-- `heap_.size() - 1` is taken in `std::size_t`. -/
def deleteNodeSubscripts (env : TimerEnv) (index : Nat) (t : HeapTimer C) : List Subscript :=
  t.swapNodeSubscripts index ((t.heap.length + (2 ^ 64 - 1)) % 2 ^ 64) ++
    behind (t.takeOut index) (upOrDownSubscripts env index)

def tickLoopSubscripts (envs : Nat → TimerEnv) : Nat → Nat → HeapTimer C → List Subscript
  | 0, _, _ => []
  | fuel + 1, turn, t =>
      match t.heap with
      | [] => []
      | node :: _ =>
          if 0 < node.remaining (envs turn) then []
          else
            t.deleteNodeSubscripts (envs turn) 0 ++
              behind (t.deleteNode (envs turn) 0) (tickLoopSubscripts envs fuel (turn + 1))

def tickSubscripts (envs : Nat → TimerEnv) (t : HeapTimer C) : List Subscript :=
  tickLoopSubscripts envs t.heap.length 0 t

/-- `AddTimer` writes two members of a node that is there, `AdjustTimer` one. -/
def subscripts (t : HeapTimer C) : TimerCall C → List Subscript
  | .addTimer env fd timeout cb =>
      match t.fdHeapMap fd with
      | some existNode =>
          t.pairSubscripts existNode existNode ++
            behind (t.writeNode existNode (TimerNode.rearm env timeout cb))
              (upOrDownSubscripts env existNode)
      | none =>
          (t.pushNode ⟨fd, deadline env timeout, cb⟩).percolateUpSubscripts env t.heap.length
  | .adjustTimer env fd timeout =>
      t.subscript (t.indexOf fd) ::
        behind ((t.touchIndex fd).writeNode (t.indexOf fd) (TimerNode.postpone env timeout))
          (upOrDownSubscripts env (t.indexOf fd))
  | .doRightNow env fd =>
      match t.fdHeapMap fd with
      | none => []
      | some index => t.subscript index :: t.deleteNodeSubscripts env index
  | .tick envs => t.tickSubscripts envs
  | .nextTickTime envs _ => t.tickSubscripts envs
  | .clear => []

/-- Every subscript that the call evaluates is smaller than the size of the heap. -/
def SubscriptsInside (t : HeapTimer C) (call : TimerCall C) : Prop :=
  ∀ s ∈ t.subscripts call, s.Inside

/-! ## Where all are inside -/

theorem inside_append {xs ys : List Subscript} :
    (∀ s ∈ xs ++ ys, s.Inside) ↔ (∀ s ∈ xs, s.Inside) ∧ ∀ s ∈ ys, s.Inside :=
  List.forall_mem_append

theorem pairSubscripts_inside {i j : Nat} :
    (∀ s ∈ t.pairSubscripts i j, s.Inside) ↔ i < t.heap.length ∧ j < t.heap.length := by
  rw [pairSubscripts, List.forall_mem_cons, List.forall_mem_singleton]
  exact Iff.rfl

/-- Sifting up then compares nodes of the heap only. -/
theorem percolateUpLoop_inside {env : TimerEnv} (env' : TimerEnv) :
    ∀ {fuel index : Nat} {t : HeapTimer C},
      (∀ s ∈ percolateUpLoopSubscripts env fuel index t, s.Inside) →
      ∃ t', percolateUpLoop env fuel index t = .ok t' ∧
        percolateUpLoop env' fuel index t = .ok t' := by
  intro fuel
  induction fuel with
  | zero => exact fun _ => ⟨_, rfl, rfl⟩
  | succ fuel ih =>
      intro index t hin
      rw [percolateUpLoopSubscripts] at hin
      rw [percolateUpLoop, percolateUpLoop]
      by_cases hparent : 0 < parentNode index
      · rw [if_pos hparent, inside_append, pairSubscripts_inside] at hin
        obtain ⟨⟨hp, hi⟩, hin⟩ := hin
        rw [less_eq env hp hi] at hin
        rw [if_pos hparent, if_pos hparent, less_eq env hp hi, less_eq env' hp hi]
        by_cases hless : t.key (parentNode index) < t.key index
        · rw [decide_eq_true hless]
          exact ⟨t, rfl, rfl⟩
        · rw [decide_eq_false hless] at hin ⊢
          rw [swapHeap_eq hp hi] at hin ⊢
          exact ih (inside_append.mp hin).2
      · rw [if_neg hparent, if_neg hparent]
        exact ⟨t, rfl, rfl⟩

/-- Sifting down always does. -/
theorem percolateDown_same (env env' : TimerEnv) (index : Nat) (t : HeapTimer C) :
    ∃ t', t.percolateDown env index = .ok t' ∧ t.percolateDown env' index = .ok t' := by
  obtain ⟨t', hloop, -⟩ := percolateDownLoop_sifts index t
  exact ⟨t', hloop env _ (Nat.le_add_left _ _), hloop env' _ (Nat.le_add_left _ _)⟩

theorem checkUpOrDown_same (env env' : TimerEnv) (index : Nat) (t : HeapTimer C) :
    ∃ up, t.checkUpOrDown env index = .ok up ∧ t.checkUpOrDown env' index = .ok up := by
  obtain ⟨up, hup, hchild⟩ := checkUpOrDown_spec env index t
  obtain ⟨up', hup', hchild'⟩ := checkUpOrDown_spec env' index t
  have hsame : up = up' := Bool.eq_iff_iff.mpr (hchild.trans hchild'.symm)
  exact ⟨up, hup, by rw [hup', hsame]⟩

theorem upOrDown_inside {env : TimerEnv} (env' : TimerEnv) {index : Nat}
    (hin : ∀ s ∈ t.upOrDownSubscripts env index, s.Inside) :
    ∃ t', t.upOrDown env index = .ok t' ∧ t.upOrDown env' index = .ok t' := by
  obtain ⟨up, hup, hup'⟩ := checkUpOrDown_same env env' index t
  rw [upOrDownSubscripts, hup, inside_append] at hin
  rw [upOrDown, upOrDown, hup, hup']
  cases up with
  | true => exact percolateUpLoop_inside env' hin.2
  | false => exact percolateDown_same env env' index t

theorem deleteNode_inside {env : TimerEnv} (env' : TimerEnv) {index : Nat}
    (hin : ∀ s ∈ t.deleteNodeSubscripts env index, s.Inside) :
    index < t.heap.length ∧
      ∃ t', t.deleteNode env index = .ok t' ∧ t.deleteNode env' index = .ok t' := by
  rw [deleteNodeSubscripts, inside_append, swapNodeSubscripts, inside_append,
    pairSubscripts_inside] at hin
  obtain ⟨⟨⟨hi, -⟩, -⟩, hin⟩ := hin
  obtain ⟨t₁, htake, -⟩ := takeOut_spec hi
  rw [htake] at hin
  obtain ⟨t', hok, hok'⟩ := upOrDown_inside env' hin
  refine ⟨hi, t', ?_, ?_⟩
  · rw [deleteNode, htake]
    exact hok
  · rw [deleteNode, htake]
    exact hok'

theorem remaining_congr {env env' : TimerEnv} (hnow : env'.now = env.now) (node : TimerNode C) :
    node.remaining env' = node.remaining env := by
  rw [TimerNode.remaining, hnow]
  rfl

theorem tickLoop_inside {envs envs' : Nat → TimerEnv}
    (hnow : ∀ turn, (envs' turn).now = (envs turn).now) :
    ∀ {fuel turn : Nat} {t : HeapTimer C},
      (∀ s ∈ tickLoopSubscripts envs fuel turn t, s.Inside) →
      ∃ r, tickLoop envs fuel turn t = .ok r ∧ tickLoop envs' fuel turn t = .ok r := by
  intro fuel
  induction fuel with
  | zero => exact fun _ => ⟨_, rfl, rfl⟩
  | succ fuel ih =>
      intro turn t hin
      rw [tickLoopSubscripts] at hin
      rw [tickLoop, tickLoop]
      cases hheap : t.heap with
      | nil => exact ⟨_, rfl, rfl⟩
      | cons node rest =>
          rw [hheap] at hin
          simp only [remaining_congr (hnow turn)]
          by_cases hremaining : 0 < node.remaining (envs turn)
          · simp only [if_pos hremaining]
            exact ⟨_, rfl, rfl⟩
          · simp only [if_neg hremaining] at hin ⊢
            obtain ⟨hdelete, hrest⟩ := inside_append.mp hin
            obtain ⟨-, t₁, hok, hok'⟩ := deleteNode_inside (envs' turn) hdelete
            rw [hok] at hrest
            obtain ⟨r, hloop, hloop'⟩ := ih hrest
            rw [hok, hok']
            simp only [bind, Except.bind, hloop, hloop']
            exact ⟨_, rfl, rfl⟩

/-- The same call in other surroundings. -/
def TimerCall.mapEnv (f : TimerEnv → TimerEnv) : TimerCall C → TimerCall C
  | .addTimer env fd timeout cb => .addTimer (f env) fd timeout cb
  | .adjustTimer env fd timeout => .adjustTimer (f env) fd timeout
  | .doRightNow env fd => .doRightNow (f env) fd
  | .tick envs => .tick fun turn => f (envs turn)
  | .nextTickTime envs env => .nextTickTime (fun turn => f (envs turn)) (f env)
  | .clear => .clear

theorem rewrite_inside {env : TimerEnv} (env' : TimerEnv) {index : Nat}
    {write : TimerNode C → TimerNode C} (hi : index < t.heap.length)
    (hin : ∀ s ∈ behind (t.writeNode index write) (upOrDownSubscripts env index), s.Inside) :
    ∃ t', (t.writeNode index write >>= fun t₁ => t₁.upOrDown env index) = .ok t' ∧
      (t.writeNode index write >>= fun t₁ => t₁.upOrDown env' index) = .ok t' := by
  rw [writeNode_eq hi] at hin ⊢
  exact upOrDown_inside env' hin

/-- **What the subscripts cover.** Where all are inside, the call is made, and what stands in
memory outside of the heap makes no difference: only the clock does. -/
theorem timerStep_same {f : TimerEnv → TimerEnv} (hf : ∀ env, (f env).now = env.now)
    {call : TimerCall C} (hin : t.SubscriptsInside call) :
    ∃ r, timerStep t call = some r ∧ timerStep t (TimerCall.mapEnv f call) = some r := by
  cases call with
  | addTimer env fd timeout cb =>
      have hdeadline : deadline (f env) timeout = deadline env timeout := by
        rw [deadline, deadline, hf]
      have hrearm : TimerNode.rearm (f env) timeout cb = TimerNode.rearm env timeout cb := by
        ext node
        rw [TimerNode.rearm, TimerNode.rearm, hdeadline]
      simp only [SubscriptsInside, subscripts] at hin
      simp only [timerStep, TimerCall.mapEnv, addTimer, hdeadline, hrearm]
      cases hmap : t.fdHeapMap fd with
      | some index =>
          simp only [hmap, inside_append, pairSubscripts_inside] at hin
          obtain ⟨t', hok, hok'⟩ := rewrite_inside (f env) hin.1.1 hin.2
          simp only [hok, hok']
          exact ⟨_, rfl, rfl⟩
      | none =>
          simp only [hmap] at hin
          obtain ⟨t', hok, hok'⟩ := percolateUpLoop_inside (f env) hin
          simp only [percolateUp, hok, hok']
          exact ⟨_, rfl, rfl⟩
  | adjustTimer env fd timeout =>
      have hpostpone : TimerNode.postpone (f env) timeout =
          (TimerNode.postpone env timeout : TimerNode C → TimerNode C) := by
        ext node
        rw [TimerNode.postpone, TimerNode.postpone, deadline, deadline, hf]
      simp only [SubscriptsInside, subscripts, List.forall_mem_cons] at hin
      obtain ⟨t', hok, hok'⟩ := @rewrite_inside C (t.touchIndex fd) env (f env) _ _ hin.1 hin.2
      have hcall : t.adjustTimer env fd timeout = .ok t' := hok
      have hcall' : t.adjustTimer (f env) fd timeout = .ok t' := by
        rw [adjustTimer, hpostpone]
        exact hok'
      simp only [timerStep, TimerCall.mapEnv, hcall, hcall']
      exact ⟨_, rfl, rfl⟩
  | doRightNow env fd =>
      simp only [SubscriptsInside, subscripts] at hin
      simp only [timerStep, TimerCall.mapEnv, doRightNow]
      cases hmap : t.fdHeapMap fd with
      | none => exact ⟨_, rfl, rfl⟩
      | some index =>
          simp only [hmap, List.forall_mem_cons] at hin
          obtain ⟨hi, t', hok, hok'⟩ := deleteNode_inside (f env) hin.2
          simp only [List.getElem?_eq_getElem hi, hok, hok', bind, Except.bind]
          exact ⟨_, rfl, rfl⟩
  | tick envs =>
      obtain ⟨r, hok, hok'⟩ := tickLoop_inside (fun turn => hf (envs turn)) hin
      simp only [timerStep, TimerCall.mapEnv, tick, hok, hok']
      exact ⟨_, rfl, rfl⟩
  | nextTickTime envs env =>
      obtain ⟨r, hok, hok'⟩ := tickLoop_inside (fun turn => hf (envs turn)) hin
      have hleft : ∀ t : HeapTimer C, t.timeLeft (f env) = t.timeLeft env := by
        intro t
        rw [timeLeft, timeLeft]
        cases t.heap with
        | nil => rfl
        | cons node rest => simp only [remaining_congr (hf env)]
      simp only [timerStep, TimerCall.mapEnv, nextTickTime, tick, hok, hok', hleft, bind,
        Except.bind]
      exact ⟨_, rfl, rfl⟩
  | clear => exact ⟨_, rfl, rfl⟩

/-! ## Where `PercolateUp` starts -/

theorem lessInSubscripts_inside {i j : Nat} (h : i < t.heap.length → j < t.heap.length) :
    ∀ s ∈ t.lessInSubscripts i j, s.Inside := by
  rw [lessInSubscripts]
  by_cases hi : i < t.heap.length
  · rw [if_pos hi]
    exact pairSubscripts_inside.mpr ⟨hi, h hi⟩
  · rw [if_neg hi]
    exact List.forall_mem_nil _

theorem checkUpOrDown_stays (env : TimerEnv) (index : Nat) (t : HeapTimer C) :
    ∀ s ∈ t.checkUpOrDownSubscripts env index, s.Inside := by
  have hleft : index * 2 + 1 < t.heap.length → index < t.heap.length := fun h => by omega
  have hright : index * 2 + 1 + 1 < t.heap.length → index < t.heap.length := fun h => by omega
  rw [checkUpOrDownSubscripts, lessIn_eq env hleft]
  apply inside_append.mpr
  refine ⟨lessInSubscripts_inside hleft, ?_⟩
  by_cases hless : index * 2 + 1 < t.heap.length ∧ t.key (index * 2 + 1) < t.key index
  · rw [decide_eq_true hless]
    exact List.forall_mem_nil _
  · rw [decide_eq_false hless]
    exact lessInSubscripts_inside hright

theorem percolateDown_stays (env : TimerEnv) :
    ∀ (fuel index : Nat) (t : HeapTimer C),
      ∀ s ∈ percolateDownLoopSubscripts env fuel index t, s.Inside := by
  intro fuel
  induction fuel with
  | zero => exact fun _ _ => List.forall_mem_nil _
  | succ fuel ih =>
      intro index t
      rw [percolateDownLoopSubscripts]
      by_cases hchild : 2 * index + 1 < t.heap.length
      · obtain ⟨c, hc⟩ : ∃ c, c = if decide (2 * index + 1 + 1 < t.heap.length ∧
            t.key (2 * index + 1 + 1) < t.key (2 * index + 1)) then 2 * index + 1 + 1
            else 2 * index + 1 := ⟨_, rfl⟩
        obtain ⟨hic, hcn, -, -⟩ := pickChild_least hchild hc
        have hin : index < t.heap.length := lt_trans hic hcn
        simp only [if_pos hchild, lessIn_eq env fun _ => hchild, behind]
        rw [← hc, less_eq env hin hcn]
        refine inside_append.mpr ⟨lessInSubscripts_inside fun _ => hchild, ?_⟩
        refine inside_append.mpr ⟨pairSubscripts_inside.mpr ⟨hin, hcn⟩, ?_⟩
        by_cases hless : t.key index < t.key c
        · rw [decide_eq_true hless]
          exact List.forall_mem_nil _
        · obtain ⟨t₁, hswap, -⟩ := swapNode_spec hcn hin
          rw [decide_eq_false hless, hswap]
          have hpair := pairSubscripts_inside.mpr ⟨hcn, hin⟩
          exact inside_append.mpr ⟨inside_append.mpr ⟨hpair, hpair⟩, ih c t₁⟩
      · simp only [if_neg hchild]
        exact List.forall_mem_nil _

theorem percolateUp_stays (env : TimerEnv) :
    ∀ {fuel index : Nat} {t : HeapTimer C}, 0 < index → index < t.heap.length →
      ∀ s ∈ percolateUpLoopSubscripts env fuel index t, s.Inside := by
  intro fuel
  induction fuel with
  | zero => exact fun _ _ => List.forall_mem_nil _
  | succ fuel ih =>
      intro index t hpos hi
      have hp : parent index < t.heap.length := lt_trans (parent_lt hpos) hi
      rw [percolateUpLoopSubscripts, parentNode_eq hpos]
      by_cases hparent : 0 < parent index
      · rw [if_pos hparent, less_eq env hp hi]
        have hpair := pairSubscripts_inside.mpr ⟨hp, hi⟩
        refine inside_append.mpr ⟨hpair, ?_⟩
        by_cases hless : t.key (parent index) < t.key index
        · rw [decide_eq_true hless]
          exact List.forall_mem_nil _
        · rw [decide_eq_false hless, swapHeap_eq hp hi]
          refine inside_append.mpr ⟨hpair, ih hparent ?_⟩
          simp only [List.length_set]
          exact hp
      · rw [if_neg hparent]
        exact List.forall_mem_nil _

/-- `PercolateUp` stays inside where it starts at a node below the root, or compares nothing. -/
theorem percolateUp_inside_iff (env : TimerEnv) {index : Nat} (hlen : t.heap.length < 2 ^ 63) :
    (∀ s ∈ t.percolateUpSubscripts env index, s.Inside) ↔
      parentNode index = 0 ∨ (0 < index ∧ index < t.heap.length) := by
  constructor
  · intro hin
    by_cases hparent : 0 < parentNode index
    · rw [percolateUpSubscripts, percolateUpLoopSubscripts, if_pos hparent, inside_append,
        pairSubscripts_inside] at hin
      obtain ⟨⟨hp, hi⟩, -⟩ := hin
      right
      refine ⟨?_, hi⟩
      apply Nat.pos_of_ne_zero
      rintro rfl
      have hroot : parentNode 0 = 2 ^ 63 - 1 := rfl
      rw [hroot] at hp
      omega
    · exact Or.inl (Nat.eq_zero_of_not_pos hparent)
  · rintro (hzero | ⟨hpos, hi⟩)
    · rw [percolateUpSubscripts, percolateUpLoopSubscripts, if_neg (by rw [hzero]; decide)]
      exact List.forall_mem_nil _
    · exact percolateUp_stays env hpos hi

/-- **The end of every operation** stays inside unless `PercolateUp` is started at the root or
behind the heap, and compares something there. -/
theorem upOrDown_inside_iff (env : TimerEnv) {index : Nat} (hlen : t.heap.length < 2 ^ 63) :
    (∀ s ∈ t.upOrDownSubscripts env index, s.Inside) ↔
      (t.checkUpOrDown env index = .ok true →
        parentNode index = 0 ∨ (0 < index ∧ index < t.heap.length)) := by
  obtain ⟨up, hup, -⟩ := checkUpOrDown_spec env index t
  rw [upOrDownSubscripts, inside_append, and_iff_right (checkUpOrDown_stays env index t), hup]
  cases up with
  | true =>
      rw [← percolateUp_inside_iff env hlen]
      exact ⟨fun hin _ => hin, fun hin => hin rfl⟩
  | false =>
      apply iff_of_true (percolateDown_stays env _ index t)
      intro hup
      cases Except.ok.inj hup

/-! ## Runs -/

/-- `AddTimer` and `AdjustTimer` -/
def TimerCall.SetsDeadline : TimerCall C → Prop
  | .addTimer _ _ _ _ => True
  | .adjustTimer _ _ _ => True
  | _ => False

/-- On an empty timer the other calls evaluate no subscript. -/
theorem new_inside_iff (call : TimerCall C) :
    SubscriptsInside new call ↔ ¬ TimerCall.SetsDeadline call := by
  cases call with
  | addTimer env fd timeout cb =>
      refine iff_of_false ?_ fun hnot => hnot trivial
      intro hin
      have hlen : ((new : HeapTimer C).pushNode ⟨fd, deadline env timeout, cb⟩).heap.length <
          2 ^ 63 := by
        show 1 < 2 ^ 63
        decide
      rcases (percolateUp_inside_iff env hlen).mp hin with hzero | ⟨hpos, -⟩
      · exact absurd hzero (show ¬ parentNode 0 = 0 by decide)
      · exact absurd hpos (lt_irrefl 0)
  | adjustTimer env fd timeout =>
      refine iff_of_false ?_ fun hnot => hnot trivial
      intro hin
      exact absurd (hin _ List.mem_cons_self) (Nat.not_lt_zero _)
  | doRightNow env fd => exact iff_of_true (List.forall_mem_nil _) id
  | tick envs => exact iff_of_true (List.forall_mem_nil _) id
  | nextTickTime envs env => exact iff_of_true (List.forall_mem_nil _) id
  | clear => exact iff_of_true (List.forall_mem_nil _) id

/-- They leave it as it is. -/
theorem new_step {call : TimerCall C} {answer : TimerAnswer C}
    (hcall : ¬ TimerCall.SetsDeadline call) (hstep : timerStep new call = some (t', answer)) :
    t' = new := by
  cases call with
  | addTimer env fd timeout cb => exact absurd trivial hcall
  | adjustTimer env fd timeout => exact absurd trivial hcall
  | doRightNow env fd => exact (Prod.mk.inj (Option.some.inj hstep)).1.symm
  | tick envs => exact (Prod.mk.inj (Option.some.inj hstep)).1.symm
  | nextTickTime envs env => exact (Prod.mk.inj (Option.some.inj hstep)).1.symm
  | clear => exact (Prod.mk.inj (Option.some.inj hstep)).1.symm

theorem run_inside_iff (calls : List (TimerCall C)) :
    (timer C).Meets SubscriptsInside new calls ↔
      ∀ call ∈ calls, ¬ TimerCall.SetsDeadline call := by
  induction calls with
  | nil => exact iff_of_true trivial (List.forall_mem_nil _)
  | cons call calls ih =>
      rw [Machine.Meets, new_inside_iff, List.forall_mem_cons]
      refine and_congr_right fun hcall => ?_
      have hmade : ∃ answer, (timer C).step new call = some (new, answer) := by
        have hnow : ∀ env : TimerEnv, (id env).now = env.now := fun _ => rfl
        obtain ⟨⟨t', answer⟩, hstep, -⟩ := timerStep_same hnow ((new_inside_iff call).mpr hcall)
        obtain rfl := new_step hcall hstep
        exact ⟨answer, hstep⟩
      obtain ⟨answer, hstep⟩ := hmade
      rw [← ih]
      constructor
      · exact fun hrest => hrest new answer hstep
      · intro hrest t' answer' hstep'
        rw [new_step hcall hstep']
        exact hrest

/-- **Subscripts.** From an empty timer every subscript of every call is inside the heap exactly
in the sequences that never set a deadline. In any heap the end of an operation is inside
unless its `PercolateUp` starts at the root or behind the heap. -/
theorem subscripts_inside_iff (calls : List (TimerCall C)) :
    ((timer C).Meets SubscriptsInside new calls ↔
        ∀ call ∈ calls, ¬ TimerCall.SetsDeadline call) ∧
      ∀ (t : HeapTimer C) (env : TimerEnv) (index : Nat), t.heap.length < 2 ^ 63 →
        ((∀ s ∈ t.upOrDownSubscripts env index, s.Inside) ↔
          (t.checkUpOrDown env index = .ok true →
            parentNode index = 0 ∨ (0 < index ∧ index < t.heap.length))) :=
  ⟨run_inside_iff calls, fun _ env _ hlen => upOrDown_inside_iff env hlen⟩

/-- The first timer that is added looks at `heap_[2^63 - 1]` in a heap of one node. -/
theorem addTimer_leaves_heap :
    ⟨2 ^ 63 - 1, 1⟩ ∈ (new : HeapTimer Nat).subscripts (.addTimer (quietEnv 0) 1 100 11) ∧
      ¬ (timer Nat).Meets SubscriptsInside new [.addTimer (quietEnv 0) 1 100 11] := by
  have hmem : ⟨2 ^ 63 - 1, 1⟩ ∈
      (new : HeapTimer Nat).subscripts (.addTimer (quietEnv 0) 1 100 11) := by
    decide +kernel
  refine ⟨hmem, ?_⟩
  intro hmeets
  have hin : 2 ^ 63 - 1 < 1 := hmeets.1 _ hmem
  exact absurd hin (by decide)

end HeapTimer

end WhiteWebServer
