import Mathlib.Algebra.Ring.Int.Defs
import Mathlib.Algebra.Ring.Nat
import Mathlib.Data.Int.Order.Basic
import Mathlib.Data.List.Perm.Basic
import WhiteWebServer.Lib.HeapOrder
import WhiteWebServer.Lib.Machine

/-!
# The timer

`HeapTimer` is a vector of nodes that is meant to be a binary heap in the order
of `expires`, and a map from descriptors to their indices in it. §1 data, §2
sifting, §3 the calls, §4 what sifting does. An access outside of `heap_` reads
what stands in memory there, and is a fault where it writes. Callbacks do not
call the timer.
-/

namespace WhiteWebServer

open HeapOrder

/-! ## §1  Data -/

/-- `HeapTimer::TimerNode`. Times count nanoseconds. -/
structure TimerNode (C : Type) where
  fd : Int
  expires : Int
  cb : C
  deriving DecidableEq

/-- What a call finds around the timer: `Clock::now()`, and the `expires` read at an
index outside of `heap_` (`none` where the read traps). -/
structure TimerEnv where
  now : Int
  mem : Nat → Option Int

inductive TimerFault
  | outOfBounds
  deriving DecidableEq

structure HeapTimer (C : Type) where
  heap : List (TimerNode C)
  fdHeapMap : Int → Option Nat

/-- `Clock::now() + Ms{timeout}` -/
def deadline (env : TimerEnv) (timeout : Int) : Int := env.now + timeout * 1000000

/-- `duration_cast<Ms>(expires - Clock::now()).count()` -/
def TimerNode.remaining {C : Type} (node : TimerNode C) (env : TimerEnv) : Int :=
  (node.expires - env.now).tdiv 1000000

/-- `AddTimer` on a node that is there. -/
def TimerNode.rearm {C : Type} (env : TimerEnv) (timeout : Int) (cb : C) (node : TimerNode C) :
    TimerNode C :=
  { node with expires := deadline env timeout, cb := cb }

/-- `AdjustTimer` -/
def TimerNode.postpone {C : Type} (env : TimerEnv) (timeout : Int) (node : TimerNode C) :
    TimerNode C :=
  { node with expires := deadline env timeout }

namespace HeapTimer

variable {C : Type}

def new : HeapTimer C := { heap := [], fdHeapMap := fun _ => none }

/-- `heap_[index].expires`, read -/
def expiresAt (env : TimerEnv) (index : Nat) (t : HeapTimer C) : Except TimerFault Int :=
  match t.heap[index]? with
  | some node => .ok node.expires
  | none =>
      match env.mem index with
      | some expires => .ok expires
      | none => .error .outOfBounds

/-- `heap_[node_1] < heap_[node_2]`; `>` is the same with the nodes exchanged. -/
def less (env : TimerEnv) (node₁ node₂ : Nat) (t : HeapTimer C) : Except TimerFault Bool := do
  let a ← t.expiresAt env node₁
  let b ← t.expiresAt env node₂
  pure (decide (a < b))

/-- The same behind its bound: `node_1 < heap_.size() && heap_[node_1] < heap_[node_2]`. -/
def lessIn (env : TimerEnv) (node₁ node₂ : Nat) (t : HeapTimer C) : Except TimerFault Bool :=
  if node₁ < t.heap.length then t.less env node₁ node₂ else .ok false

/-- The assignments to members of `heap_[index]`. -/
def writeNode (index : Nat) (write : TimerNode C → TimerNode C) (t : HeapTimer C) :
    Except TimerFault (HeapTimer C) :=
  match t.heap[index]? with
  | some node => .ok { t with heap := t.heap.set index (write node) }
  | none => .error .outOfBounds

/-- `std::swap(heap_[node_1], heap_[node_2])` -/
def swapHeap (node₁ node₂ : Nat) (t : HeapTimer C) : Except TimerFault (HeapTimer C) :=
  match t.heap[node₁]?, t.heap[node₂]? with
  | some a, some b => .ok { t with heap := (t.heap.set node₁ b).set node₂ a }
  | _, _ => .error .outOfBounds

/-- `SwapNode`: each node that has moved is given the index it has left. -/
def swapNode (node₁ node₂ : Nat) (t : HeapTimer C) : Except TimerFault (HeapTimer C) := do
  let t ← t.swapHeap node₁ node₂
  match t.heap[node₁]?, t.heap[node₂]? with
  | some a, some b =>
      pure { t with
        fdHeapMap := Function.update (Function.update t.fdHeapMap a.fd (some node₂))
          b.fd (some node₁) }
  | _, _ => .error .outOfBounds

/-! ## §2  Sifting -/

/-- `(index - 1) / 2` in `std::size_t` -/
def parentNode : Nat → Nat
  | 0 => 2 ^ 63 - 1
  | n + 1 => n / 2

def percolateUpLoop (env : TimerEnv) : Nat → Nat → HeapTimer C → Except TimerFault (HeapTimer C)
  | 0, _, t => .ok t
  | fuel + 1, index, t =>
      if 0 < parentNode index then do
        if ← t.less env (parentNode index) index then
          pure t
        else
          let t ← t.swapHeap (parentNode index) index
          percolateUpLoop env fuel (parentNode index) t
      else .ok t

/-- 64 turns bring every `std::size_t` to the root. -/
def percolateUp (env : TimerEnv) (index : Nat) (t : HeapTimer C) :
    Except TimerFault (HeapTimer C) :=
  percolateUpLoop env (index + 64) index t

def percolateDownLoop (env : TimerEnv) : Nat → Nat → HeapTimer C → Except TimerFault (HeapTimer C)
  | 0, _, t => .ok t
  | fuel + 1, index, t =>
      let childNode := 2 * index + 1
      if childNode < t.heap.length then do
        let right ← t.lessIn env (childNode + 1) childNode
        let childNode := if right then childNode + 1 else childNode
        if ← t.less env index childNode then
          pure t
        else
          let t ← t.swapNode childNode index
          percolateDownLoop env fuel childNode t
      else .ok t

def percolateDown (env : TimerEnv) (index : Nat) (t : HeapTimer C) :
    Except TimerFault (HeapTimer C) :=
  percolateDownLoop env t.heap.length index t

/-- `Check_up_or_down` -/
def checkUpOrDown (env : TimerEnv) (index : Nat) (t : HeapTimer C) : Except TimerFault Bool := do
  let childNode := index * 2 + 1
  if ← t.lessIn env childNode index then
    pure false
  else
    let right ← t.lessIn env (childNode + 1) index
    pure !right

/-- The end of `AddTimer`, `AdjustTimer` and `DeleteNode`. -/
def upOrDown (env : TimerEnv) (index : Nat) (t : HeapTimer C) :
    Except TimerFault (HeapTimer C) := do
  if ← t.checkUpOrDown env index then t.percolateUp env index else t.percolateDown env index

/-! ## §3  The calls -/

/-- `fd_heap_map_.emplace(fd, new_node)` and `heap_.push_back(…)` -/
def pushNode (node : TimerNode C) (t : HeapTimer C) : HeapTimer C :=
  { heap := t.heap ++ [node],
    fdHeapMap := Function.update t.fdHeapMap node.fd (some t.heap.length) }

def addTimer (env : TimerEnv) (fd timeout : Int) (cb : C) (t : HeapTimer C) :
    Except TimerFault (HeapTimer C) :=
  match t.fdHeapMap fd with
  | some existNode => do
      let t ← t.writeNode existNode (TimerNode.rearm env timeout cb)
      t.upOrDown env existNode
  | none => (t.pushNode ⟨fd, deadline env timeout, cb⟩).percolateUp env t.heap.length

/-- `fd_heap_map_[fd]`: a missing entry is created, as 0. -/
def indexOf (fd : Int) (t : HeapTimer C) : Nat := (t.fdHeapMap fd).getD 0

def touchIndex (fd : Int) (t : HeapTimer C) : HeapTimer C :=
  { t with fdHeapMap := Function.update t.fdHeapMap fd (some (t.indexOf fd)) }

def adjustTimer (env : TimerEnv) (fd timeout : Int) (t : HeapTimer C) :
    Except TimerFault (HeapTimer C) := do
  let existNode := t.indexOf fd
  let t ← (t.touchIndex fd).writeNode existNode (TimerNode.postpone env timeout)
  t.upOrDown env existNode

/-- `DeleteNode` up to `pop_back`. -/
def takeOut (index : Nat) (t : HeapTimer C) : Except TimerFault (HeapTimer C) := do
  let t ← t.swapNode index (t.heap.length - 1)
  match t.heap.getLast? with
  | some back =>
      pure { heap := t.heap.dropLast, fdHeapMap := Function.update t.fdHeapMap back.fd none }
  | none => .error .outOfBounds

def deleteNode (env : TimerEnv) (index : Nat) (t : HeapTimer C) :
    Except TimerFault (HeapTimer C) := do
  let t ← t.takeOut index
  t.upOrDown env index

/-- The timer and the callbacks that have been run. -/
def doRightNow (env : TimerEnv) (fd : Int) (t : HeapTimer C) :
    Except TimerFault (HeapTimer C × List C) :=
  match t.fdHeapMap fd with
  | none => .ok (t, [])
  | some index =>
      match t.heap[index]? with
      | none => .error .outOfBounds
      | some node => do
          let t ← t.deleteNode env index
          pure (t, [node.cb])

/-- The turns of the loop of `Tick`; each reads the clock. -/
def tickLoop (envs : Nat → TimerEnv) :
    Nat → Nat → HeapTimer C → Except TimerFault (HeapTimer C × List C)
  | 0, _, t => .ok (t, [])
  | fuel + 1, turn, t =>
      match t.heap with
      | [] => .ok (t, [])
      | node :: _ =>
          if 0 < node.remaining (envs turn) then .ok (t, [])
          else do
            let t ← t.deleteNode (envs turn) 0
            let (t, fired) ← tickLoop envs fuel (turn + 1) t
            pure (t, node.cb :: fired)

/-- A turn that does not end the loop removes a node. -/
def tick (envs : Nat → TimerEnv) (t : HeapTimer C) :
    Except TimerFault (HeapTimer C × List C) :=
  tickLoop envs t.heap.length 0 t

/-- What `NextTickTime` returns behind its `Tick`. -/
def timeLeft (env : TimerEnv) (t : HeapTimer C) : Int :=
  match t.heap with
  | [] => -1
  | node :: _ =>
      let ret := node.remaining env
      if 0 < ret then ret else 0

def nextTickTime (envs : Nat → TimerEnv) (env : TimerEnv) (t : HeapTimer C) :
    Except TimerFault (HeapTimer C × List C × Int) := do
  let (t, fired) ← t.tick envs
  pure (t, fired, t.timeLeft env)

def clear (_ : HeapTimer C) : HeapTimer C := { heap := [], fdHeapMap := fun _ => none }

/-- A call on the timer, with what it finds. -/
inductive TimerCall (C : Type) where
  | addTimer (env : TimerEnv) (fd timeout : Int) (cb : C)
  | adjustTimer (env : TimerEnv) (fd timeout : Int)
  | doRightNow (env : TimerEnv) (fd : Int)
  | tick (envs : Nat → TimerEnv)
  | nextTickTime (envs : Nat → TimerEnv) (env : TimerEnv)
  | clear

/-- The callbacks run by a call, and what `NextTickTime` returns. -/
structure TimerAnswer (C : Type) where
  fired : List C
  wait : Option Int

/-- A call that does not fault. -/
def timerStep (t : HeapTimer C) : TimerCall C → Option (HeapTimer C × TimerAnswer C)
  | .addTimer env fd timeout cb => (t.addTimer env fd timeout cb).toOption.map (·, ⟨[], none⟩)
  | .adjustTimer env fd timeout => (t.adjustTimer env fd timeout).toOption.map (·, ⟨[], none⟩)
  | .doRightNow env fd => (t.doRightNow env fd).toOption.map fun r => (r.1, ⟨r.2, none⟩)
  | .tick envs => (t.tick envs).toOption.map fun r => (r.1, ⟨r.2, none⟩)
  | .nextTickTime envs env =>
      (t.nextTickTime envs env).toOption.map fun r => (r.1, ⟨r.2.1, some r.2.2⟩)
  | .clear => some (t.clear, ⟨[], none⟩)

/-- A timer as constructed, and every sequence of calls on it. -/
def timer (C : Type) : Machine (HeapTimer C) (TimerCall C) (TimerAnswer C) where
  init := new
  step := timerStep

/-! ## §4  What sifting does -/

/-- The deadline at an index. -/
def key (t : HeapTimer C) (i : Nat) : Int := (t.heap[i]?.map TimerNode.expires).getD 0

/-- The nodes are in the order of a heap. -/
def IsHeap (t : HeapTimer C) : Prop := Ordered t.heap.length t.key

/-- Every node can be found through the map. -/
def Keyed (t : HeapTimer C) : Prop := ∀ node ∈ t.heap, (t.fdHeapMap node.fd).isSome

/-- Nodes have been moved and indices changed, but none added or removed. -/
structure Moved (t t' : HeapTimer C) : Prop where
  perm : t'.heap.Perm t.heap
  keys : t.Keyed → ∀ fd, (t'.fdHeapMap fd).isSome = (t.fdHeapMap fd).isSome

namespace Moved

theorem refl (t : HeapTimer C) : Moved t t := ⟨List.Perm.refl _, fun _ _ => rfl⟩

theorem keyed {t t' : HeapTimer C} (h : Moved t t') (hk : t.Keyed) : t'.Keyed := by
  intro node hnode
  rw [h.keys hk]
  exact hk node (h.perm.subset hnode)

theorem trans {t t' t'' : HeapTimer C} (h : Moved t t') (h' : Moved t' t'') : Moved t t'' := by
  refine ⟨h'.perm.trans h.perm, ?_⟩
  intro hk fd
  rw [h'.keys (h.keyed hk), h.keys hk]

theorem length {t t' : HeapTimer C} (h : Moved t t') : t'.heap.length = t.heap.length :=
  h.perm.length_eq

end Moved

theorem key_of_get {t : HeapTimer C} {i : Nat} {node : TimerNode C}
    (h : t.heap[i]? = some node) : t.key i = node.expires := by
  rw [key, h]
  rfl

theorem expiresAt_eq (env : TimerEnv) {t : HeapTimer C} {i : Nat} (h : i < t.heap.length) :
    t.expiresAt env i = .ok (t.key i) := by
  rw [expiresAt, key, List.getElem?_eq_getElem h]
  rfl

theorem less_eq (env : TimerEnv) {t : HeapTimer C} {i j : Nat} (hi : i < t.heap.length)
    (hj : j < t.heap.length) : t.less env i j = .ok (decide (t.key i < t.key j)) := by
  rw [less, expiresAt_eq env hi, expiresAt_eq env hj]
  rfl

theorem swapHeap_eq {t : HeapTimer C} {i j : Nat} (hi : i < t.heap.length)
    (hj : j < t.heap.length) :
    t.swapHeap i j = .ok { t with heap := (t.heap.set i t.heap[j]).set j t.heap[i] } := by
  rw [swapHeap, List.getElem?_eq_getElem hi, List.getElem?_eq_getElem hj]

theorem swapHeap_spec {t : HeapTimer C} {i j : Nat} (hi : i < t.heap.length)
    (hj : j < t.heap.length) :
    ∃ t', t.swapHeap i j = .ok t' ∧ t'.fdHeapMap = t.fdHeapMap ∧ t'.heap.Perm t.heap ∧
      (∀ k, t'.heap[k]? = t.heap[Equiv.swap i j k]?) := by
  refine ⟨_, swapHeap_eq hi hj, rfl, List.set_set_perm hi hj, ?_⟩
  intro k
  by_cases hkj : k = j
  · subst hkj
    rw [Equiv.swap_apply_right, List.getElem?_set_self (by rw [List.length_set]; exact hj),
      List.getElem?_eq_getElem hi]
  · rw [List.getElem?_set_ne (Ne.symm hkj)]
    by_cases hki : k = i
    · subst hki
      rw [Equiv.swap_apply_left, List.getElem?_set_self hi, List.getElem?_eq_getElem hj]
    · rw [List.getElem?_set_ne (Ne.symm hki), Equiv.swap_apply_of_ne_of_ne hki hkj]

theorem key_exchange {t t' : HeapTimer C} {i j : Nat}
    (h : ∀ k, t'.heap[k]? = t.heap[Equiv.swap i j k]?) : t'.key = exchange t.key i j := by
  ext k
  rw [key, h k]
  rfl

/-- A swap that leaves the map as it was. -/
theorem swapHeap_moved {t : HeapTimer C} {i j : Nat} (hi : i < t.heap.length)
    (hj : j < t.heap.length) :
    ∃ t', t.swapHeap i j = .ok t' ∧ Moved t t' ∧ t'.key = exchange t.key i j := by
  obtain ⟨t', hok, hmap, hperm, hget⟩ := swapHeap_spec hi hj
  exact ⟨t', hok, ⟨hperm, fun _ _ => by rw [hmap]⟩, key_exchange hget⟩

theorem isSome_update {map : Int → Option Nat} {fd : Int} (h : (map fd).isSome) (i : Nat)
    (fd' : Int) : (Function.update map fd (some i) fd').isSome = (map fd').isSome := by
  by_cases heq : fd' = fd
  · rw [heq, Function.update_self, h]
    rfl
  · rw [Function.update_of_ne heq]

/-- `SwapNode` gives each of the two nodes the index it has left. -/
theorem swapNode_spec {t : HeapTimer C} {i j : Nat} (hi : i < t.heap.length)
    (hj : j < t.heap.length) :
    ∃ t', t.swapNode i j = .ok t' ∧ t'.heap.Perm t.heap ∧
      (∀ k, t'.heap[k]? = t.heap[Equiv.swap i j k]?) ∧
      t'.fdHeapMap = Function.update (Function.update t.fdHeapMap t.heap[j].fd (some j))
        t.heap[i].fd (some i) := by
  obtain ⟨t₁, hok, hmap, hperm, hget⟩ := swapHeap_spec hi hj
  have hi' : t₁.heap[i]? = some t.heap[j] := by
    rw [hget, Equiv.swap_apply_left, List.getElem?_eq_getElem hj]
  have hj' : t₁.heap[j]? = some t.heap[i] := by
    rw [hget, Equiv.swap_apply_right, List.getElem?_eq_getElem hi]
  refine ⟨{ t₁ with
      fdHeapMap := Function.update (Function.update t₁.fdHeapMap t.heap[j].fd (some j))
        t.heap[i].fd (some i) }, ?_, hperm, hget, by rw [hmap]⟩
  simp only [swapNode, hok, bind, Except.bind, hi', hj']
  rfl

/-- `SwapNode` leaves the keys of the map. -/
theorem swapNode_moved {t : HeapTimer C} {i j : Nat} (hi : i < t.heap.length)
    (hj : j < t.heap.length) :
    ∃ t', t.swapNode i j = .ok t' ∧ Moved t t' ∧
      (∀ k, t'.heap[k]? = t.heap[Equiv.swap i j k]?) := by
  obtain ⟨t', hok, hperm, hget, hmap⟩ := swapNode_spec hi hj
  refine ⟨t', hok, ⟨hperm, ?_⟩, hget⟩
  intro hk fd
  have hkj := hk _ (List.getElem_mem hj)
  have hki := hk _ (List.getElem_mem hi)
  rw [← isSome_update hkj j] at hki
  rw [hmap, isSome_update hki i fd, isSome_update hkj j fd]

theorem parentNode_eq {i : Nat} (hi : 0 < i) : parentNode i = parent i := by
  cases i with
  | zero => exact absurd hi (lt_irrefl 0)
  | succ n => rfl

/-- Sifting up from a node of the heap ends below the root: where the order is broken
only above the node, and it is not below the root, the order is restored. -/
theorem percolateUpLoop_spec (env : TimerEnv) :
    ∀ (fuel index : Nat) (t : HeapTimer C), 0 < index → index < t.heap.length → index < fuel →
      ∃ t', percolateUpLoop env fuel index t = .ok t' ∧ Moved t t' ∧
        (OrderedButAbove t.heap.length t.key index → t.key 0 ≤ t.key index → t'.IsHeap) := by
  intro fuel
  induction fuel with
  | zero =>
      intro index t _ _ hfuel
      exact absurd hfuel (Nat.not_lt_zero _)
  | succ fuel ih =>
      intro index t hpos hlt hfuel
      have hparent : parent index < index := parent_lt hpos
      rw [percolateUpLoop, parentNode_eq hpos]
      by_cases hroot : 0 < parent index
      · rw [if_pos hroot, less_eq env (lt_trans hparent hlt) hlt]
        simp only [bind, Except.bind]
        by_cases hless : t.key (parent index) < t.key index
        · refine ⟨t, by rw [decide_eq_true hless]; rfl, Moved.refl t, ?_⟩
          intro ho _
          exact ho.done fun _ => le_of_lt hless
        · obtain ⟨t₁, hok, hmoved, hkey⟩ := swapHeap_moved (lt_trans hparent hlt) hlt
          obtain ⟨t', hok', hmoved', hheap⟩ := ih (parent index) t₁ hroot
            (by rw [hmoved.length]; exact lt_trans hparent hlt) (by omega)
          refine ⟨t', by rw [decide_eq_false hless, hok]; exact hok', hmoved.trans hmoved', ?_⟩
          intro ho hle
          apply hheap
          · rw [hmoved.length, hkey]
            exact ho.step hpos hlt (not_lt.mp hless)
          · rw [hkey, exchange_left, exchange_other _ (ne_of_lt hroot) (ne_of_lt hpos)]
            exact hle
      · have hzero : parent index = 0 := Nat.eq_zero_of_not_pos hroot
        refine ⟨t, by rw [if_neg hroot], Moved.refl t, ?_⟩
        intro ho hle
        exact ho.done fun _ => by rw [hzero]; exact hle

theorem lessIn_eq (env : TimerEnv) {t : HeapTimer C} {i j : Nat}
    (hj : i < t.heap.length → j < t.heap.length) :
    t.lessIn env i j = .ok (decide (i < t.heap.length ∧ t.key i < t.key j)) := by
  rw [lessIn]
  by_cases hi : i < t.heap.length
  · rw [if_pos hi, less_eq env hi (hj hi)]
    exact congrArg Except.ok (decide_eq_decide.mpr ⟨fun h => ⟨hi, h⟩, fun h => h.2⟩)
  · rw [if_neg hi, decide_eq_false fun h => hi h.1]

/-- The child it takes is a least one. -/
theorem pickChild_least {t : HeapTimer C} {index c : Nat} (hchild : 2 * index + 1 < t.heap.length)
    (hc : c = if decide (2 * index + 1 + 1 < t.heap.length ∧
      t.key (2 * index + 1 + 1) < t.key (2 * index + 1)) then 2 * index + 1 + 1
      else 2 * index + 1) :
    index < c ∧ c < t.heap.length ∧ parent c = index ∧
      ∀ i, 0 < i → i < t.heap.length → parent i = index → t.key c ≤ t.key i := by
  by_cases hright : 2 * index + 1 + 1 < t.heap.length ∧
      t.key (2 * index + 1 + 1) < t.key (2 * index + 1)
  · rw [if_pos (decide_eq_true hright)] at hc
    subst hc
    refine ⟨by omega, hright.1, parent_right index, ?_⟩
    intro i hi _ hpi
    rcases eq_child hi hpi with rfl | rfl
    · exact le_of_lt hright.2
    · exact le_refl _
  · rw [if_neg (by rw [decide_eq_false hright]; exact Bool.false_ne_true)] at hc
    subst hc
    refine ⟨by omega, hchild, parent_left index, ?_⟩
    intro i hi hn hpi
    rcases eq_child hi hpi with rfl | rfl
    · exact le_refl _
    · exact not_lt.mp fun h => hright ⟨hn, h⟩

/-- Only nodes in the subtree of `r` have been moved, and only their entries changed. -/
structure Sifted (r : Nat) (t t' : HeapTimer C) : Prop where
  places : ∃ σ : Equiv.Perm Nat, (∀ k, ¬ Under r k → σ k = k) ∧ ∀ k, t'.heap[k]? = t.heap[σ k]?
  entries : ∀ fd, (∀ k node, Under r k → t.heap[k]? = some node → node.fd ≠ fd) →
    t'.fdHeapMap fd = t.fdHeapMap fd

/-- What leaves the positions outside of the subtree leaves the subtree. -/
theorem under_of_fixes {σ : Equiv.Perm Nat} {r k : Nat} (hσ : ∀ k, ¬ Under r k → σ k = k)
    (hk : Under r k) : Under r (σ k) := by
  by_contra hout
  rw [σ.injective (hσ (σ k) hout)] at hout
  exact hout hk

namespace Sifted

variable {r j : Nat} {t t' t'' : HeapTimer C}

theorem refl (r : Nat) (t : HeapTimer C) : Sifted r t t :=
  ⟨⟨Equiv.refl Nat, fun _ _ => rfl, fun _ => rfl⟩, fun _ _ => rfl⟩

theorem mono (hj : Under r j) (h : Sifted j t t') : Sifted r t t' := by
  constructor
  case places =>
    obtain ⟨σ, hσ, hget⟩ := h.places
    exact ⟨σ, fun k hk => hσ k fun hk' => hk (hj.trans hk'), hget⟩
  case entries => exact fun fd hfd => h.entries fd fun k node hk => hfd k node (hj.trans hk)

theorem trans (h : Sifted r t t') (h' : Sifted r t' t'') : Sifted r t t'' := by
  obtain ⟨σ, hσ, hget⟩ := h.places
  constructor
  case places =>
    obtain ⟨σ', hσ', hget'⟩ := h'.places
    refine ⟨σ'.trans σ, ?_, ?_⟩
    · intro k hk
      rw [Equiv.trans_apply, hσ' k hk, hσ k hk]
    · intro k
      rw [hget', hget]
      rfl
  case entries =>
    intro fd hfd
    rw [← h.entries fd hfd]
    apply h'.entries
    intro k node hk hnode
    rw [hget] at hnode
    exact hfd (σ k) node (under_of_fixes hσ hk) hnode

/-- Outside of the subtree every node is where it was. -/
theorem outside (h : Sifted r t t') {k : Nat} (hk : ¬ Under r k) : t'.heap[k]? = t.heap[k]? := by
  obtain ⟨σ, hσ, hget⟩ := h.places
  rw [hget, hσ k hk]

end Sifted

theorem swapNode_sifted {r i j : Nat} {t t' : HeapTimer C} (hi : i < t.heap.length)
    (hj : j < t.heap.length) (hri : Under r i) (hrj : Under r j)
    (h : t.swapNode i j = .ok t') : Sifted r t t' := by
  obtain ⟨t₁, hok, -, hget, hmap⟩ := swapNode_spec hi hj
  obtain rfl := Except.ok.inj (hok.symm.trans h)
  constructor
  case places =>
    refine ⟨Equiv.swap i j, ?_, hget⟩
    intro k hk
    apply Equiv.swap_apply_of_ne_of_ne
    · rintro rfl
      exact hk hri
    · rintro rfl
      exact hk hrj
  case entries =>
    intro fd hfd
    have hi' := hfd i _ hri (List.getElem?_eq_getElem hi)
    have hj' := hfd j _ hrj (List.getElem?_eq_getElem hj)
    rw [hmap, Function.update_of_ne hi'.symm, Function.update_of_ne hj'.symm]

/-- A turn of `PercolateDown` ends it where no child is below the node, or exchanges the node
with a least child. It never reads outside of the heap. -/
theorem percolateDownLoop_turn (index : Nat) (t : HeapTimer C) :
    ((∀ env fuel, percolateDownLoop env fuel index t = .ok t) ∧
      ∀ i, 0 < i → i < t.heap.length → parent i = index → t.key index ≤ t.key i) ∨
    ∃ c t₁, index < c ∧ c < t.heap.length ∧ parent c = index ∧
      (∀ i, 0 < i → i < t.heap.length → parent i = index → t.key c ≤ t.key i) ∧
      t.key c ≤ t.key index ∧ t.swapNode c index = .ok t₁ ∧
      ∀ env fuel, percolateDownLoop env (fuel + 1) index t = percolateDownLoop env fuel c t₁ := by
  by_cases hchild : 2 * index + 1 < t.heap.length
  · obtain ⟨c, hc⟩ : ∃ c, c = if decide (2 * index + 1 + 1 < t.heap.length ∧
        t.key (2 * index + 1 + 1) < t.key (2 * index + 1)) then 2 * index + 1 + 1
        else 2 * index + 1 := ⟨_, rfl⟩
    obtain ⟨hic, hcn, hpc, hleast⟩ := pickChild_least hchild hc
    have hturn : ∀ env fuel, percolateDownLoop env (fuel + 1) index t =
        (if t.key index < t.key c then .ok t
          else t.swapNode c index >>= percolateDownLoop env fuel c) := by
      intro env fuel
      rw [percolateDownLoop]
      simp only [if_pos hchild, lessIn_eq env fun _ => hchild, bind, Except.bind]
      rw [← hc, less_eq env (lt_trans hic hcn) hcn]
      simp only [decide_eq_true_eq]
      rfl
    by_cases hless : t.key index < t.key c
    · left
      constructor
      · intro env fuel
        cases fuel with
        | zero => rfl
        | succ fuel => rw [hturn, if_pos hless]
      · intro i hi hn hpi
        exact le_trans (le_of_lt hless) (hleast i hi hn hpi)
    · right
      obtain ⟨t₁, hok, -, -⟩ := swapNode_moved hcn (lt_trans hic hcn)
      refine ⟨c, t₁, hic, hcn, hpc, hleast, not_lt.mp hless, hok, ?_⟩
      intro env fuel
      rw [hturn, if_neg hless, hok]
      rfl
  · left
    constructor
    · intro env fuel
      cases fuel with
      | zero => rfl
      | succ fuel => rw [percolateDownLoop, if_neg hchild]
    · intro i hi hn hpi
      rcases eq_child hi hpi with h | h <;> omega

/-- Sifting down stays in the subtree, and orders it where only the edges from the node to its
children were not in order. More fuel than there are nodes changes nothing. -/
theorem percolateDownLoop_sifts (index : Nat) (t : HeapTimer C) :
    ∃ t', (∀ env fuel, t.heap.length ≤ index + fuel →
        percolateDownLoop env fuel index t = .ok t') ∧
      Moved t t' ∧ Sifted index t t' ∧
      ∀ r, OrderedUnderBut t.heap.length t.key r index →
        OrderedUnder t'.heap.length t'.key r := by
  induction hm : t.heap.length - index using Nat.strong_induction_on generalizing index t with
  | _ m ih =>
      rcases percolateDownLoop_turn index t with
        ⟨hends, hle⟩ | ⟨c, t₁, hic, hcn, hpc, hleast, hle, hswap, hturn⟩
      · exact ⟨t, fun env fuel _ => hends env fuel, Moved.refl t, Sifted.refl index t,
          fun r ho => ho.done hle⟩
      · have hin : index < t.heap.length := lt_trans hic hcn
        have hc : 0 < c := Nat.zero_lt_of_lt hic
        obtain ⟨t₀, hok, hmoved, hget⟩ := swapNode_moved hcn hin
        obtain rfl := Except.ok.inj (hok.symm.trans hswap)
        obtain ⟨t', hloop, hmoved', hsifted, horder⟩ :=
          ih (t₀.heap.length - c) (by rw [hmoved.length]; omega) c t₀ rfl
        refine ⟨t', ?_, hmoved.trans hmoved', ?_, ?_⟩
        · intro env fuel hfuel
          cases fuel with
          | zero => exact absurd hfuel (not_le.mpr hin)
          | succ fuel =>
              rw [hturn]
              apply hloop
              rw [hmoved.length]
              omega
        · have hunder : Under index c := Under.of_parent hc hpc
          exact (swapNode_sifted hcn hin hunder Under.refl hswap).trans (hsifted.mono hunder)
        · intro r ho
          apply horder
          rw [hmoved.length, key_exchange hget]
          exact ho.step hc hcn hpc hleast hle

theorem percolateDown_spec (env : TimerEnv) (index : Nat) (t : HeapTimer C) :
    ∃ t', t.percolateDown env index = .ok t' ∧ Moved t t' ∧
      (OrderedButBelow t.heap.length t.key index → t'.IsHeap) := by
  obtain ⟨t', hloop, hmoved, -, horder⟩ := percolateDownLoop_sifts index t
  exact ⟨t', hloop env _ (Nat.le_add_left _ _), hmoved, fun ho => (horder 0 ho.under).ordered⟩

/-- `Check_up_or_down` says whether no child is below the node. -/
theorem checkUpOrDown_spec (env : TimerEnv) (index : Nat) (t : HeapTimer C) :
    ∃ up, t.checkUpOrDown env index = .ok up ∧
      (up = true ↔ ∀ i, 0 < i → i < t.heap.length → parent i = index → t.key index ≤ t.key i) := by
  have hin : ∀ {i : Nat}, 0 < i → parent i = index → i < t.heap.length → index < t.heap.length := by
    intro i hi hpi hn
    rw [← hpi]
    exact lt_trans (parent_lt hi) hn
  have hleft : parent (index * 2 + 1) = index := by
    rw [Nat.mul_comm]
    exact parent_left index
  have hright : parent (index * 2 + 1 + 1) = index := by
    rw [Nat.mul_comm]
    exact parent_right index
  simp only [checkUpOrDown, lessIn_eq env (hin (Nat.succ_pos _) hleft),
    lessIn_eq env (hin (Nat.succ_pos _) hright), bind, Except.bind]
  by_cases hl : index * 2 + 1 < t.heap.length ∧ t.key (index * 2 + 1) < t.key index
  · refine ⟨false, by rw [decide_eq_true hl]; rfl, ?_⟩
    constructor
    · intro h
      exact absurd h Bool.false_ne_true
    · intro hall
      exact absurd hl.2 (not_lt.mpr (hall _ (Nat.succ_pos _) hl.1 hleft))
  · by_cases hr : index * 2 + 1 + 1 < t.heap.length ∧ t.key (index * 2 + 1 + 1) < t.key index
    · refine ⟨false, by rw [decide_eq_false hl, decide_eq_true hr]; rfl, ?_⟩
      constructor
      · intro h
        exact absurd h Bool.false_ne_true
      · intro hall
        exact absurd hr.2 (not_lt.mpr (hall _ (Nat.succ_pos _) hr.1 hright))
    · refine ⟨true, by rw [decide_eq_false hl, decide_eq_false hr]; rfl, fun _ => ?_, fun _ => rfl⟩
      intro i hi hn hpi
      rcases eq_child hi hpi with h | h
      · rw [Nat.mul_comm] at h
        subst h
        exact not_lt.mp fun hlt => hl ⟨hn, hlt⟩
      · rw [Nat.mul_comm] at h
        subst h
        exact not_lt.mp fun hlt => hr ⟨hn, hlt⟩

/-- The end of a call sifts up where no child is below the node, and down where one is. -/
theorem upOrDown_cases (env : TimerEnv) (index : Nat) (t : HeapTimer C) :
    (t.checkUpOrDown env index = .ok true ∧ t.upOrDown env index = t.percolateUp env index ∧
      ∀ i, 0 < i → i < t.heap.length → parent i = index → t.key index ≤ t.key i) ∨
    (t.upOrDown env index = t.percolateDown env index ∧
      ∃ i, 0 < i ∧ i < t.heap.length ∧ parent i = index ∧ t.key i < t.key index) := by
  obtain ⟨up, hup, hchild⟩ := checkUpOrDown_spec env index t
  rw [upOrDown, hup]
  cases up with
  | true => exact Or.inl ⟨rfl, rfl, hchild.mp rfl⟩
  | false =>
      right
      refine ⟨rfl, ?_⟩
      by_contra hnone
      push Not at hnone
      exact Bool.false_ne_true (hchild.mpr hnone)

/-! ## §5  Where sifting stays in the heap -/

/-- `PercolateUp` from the root, or from just behind the heap, compares with memory
outside of it: the comparison must end the loop. -/
def QuietUp (env : TimerEnv) (index : Nat) (t : HeapTimer C) : Prop :=
  index = 0 ∨ t.heap.length ≤ index → 0 < parentNode index →
    t.less env (parentNode index) index = .ok true

def Quiet (env : TimerEnv) (index : Nat) (t : HeapTimer C) : Prop :=
  t.checkUpOrDown env index = .ok true → t.QuietUp env index

instance (env : TimerEnv) (index : Nat) (t : HeapTimer C) : Decidable (t.QuietUp env index) := by
  unfold QuietUp
  infer_instance

instance (env : TimerEnv) (index : Nat) (t : HeapTimer C) : Decidable (t.Quiet env index) := by
  unfold Quiet
  infer_instance

/-- From outside nothing is moved. -/
theorem percolateUp_outside (env : TimerEnv) {index : Nat} {t : HeapTimer C}
    (hq : t.QuietUp env index) (hout : index = 0 ∨ t.heap.length ≤ index) :
    t.percolateUp env index = .ok t := by
  rw [percolateUp, percolateUpLoop]
  by_cases hpos : 0 < parentNode index
  · rw [if_pos hpos, hq hout hpos]
    rfl
  · rw [if_neg hpos]

theorem percolateUp_spec (env : TimerEnv) {index : Nat} {t : HeapTimer C}
    (hq : t.QuietUp env index) :
    ∃ t', t.percolateUp env index = .ok t' ∧ Moved t t' ∧
      (OrderedButAbove t.heap.length t.key index →
        (0 < index → index < t.heap.length → t.key 0 ≤ t.key index) → t'.IsHeap) := by
  by_cases hout : index = 0 ∨ t.heap.length ≤ index
  · refine ⟨t, percolateUp_outside env hq hout, Moved.refl t, ?_⟩
    intro ho _ i hi hn
    apply ho.rest i hi hn
    rintro rfl
    rcases hout with rfl | hout
    · exact lt_irrefl _ hi
    · exact absurd hn (not_lt.mpr hout)
  · have hpos : 0 < index := Nat.pos_of_ne_zero fun h => hout (Or.inl h)
    have hlt : index < t.heap.length := not_le.mp fun h => hout (Or.inr h)
    obtain ⟨t', hok, hmoved, hheap⟩ :=
      percolateUpLoop_spec env (index + 64) index t hpos hlt (Nat.lt_add_of_pos_right (by decide))
    exact ⟨t', hok, hmoved, fun ho hle => hheap ho (hle hpos hlt)⟩

/-- Sifting up or down restores a heap that is broken only around the node, if the
node is not below the root. -/
theorem upOrDown_spec (env : TimerEnv) {index : Nat} {t : HeapTimer C} (hq : t.Quiet env index) :
    ∃ t', t.upOrDown env index = .ok t' ∧ Moved t t' ∧
      (OrderedBut t.heap.length t.key index →
        (0 < index → index < t.heap.length → t.key 0 ≤ t.key index) → t'.IsHeap) := by
  rcases upOrDown_cases env index t with ⟨hup, hcase, hchild⟩ | ⟨hcase, i, hi, hn, hpi, hlt⟩
  · obtain ⟨t', hok, hmoved, hheap⟩ := percolateUp_spec env (hq hup)
    exact ⟨t', hcase.trans hok, hmoved, fun ho hle => hheap (ho.above hchild) hle⟩
  · obtain ⟨t', hok, hmoved, hheap⟩ := percolateDown_spec env index t
    exact ⟨t', hcase.trans hok, hmoved, fun ho _ => hheap (ho.below hi hn hpi hlt)⟩

/-- The same after an assignment to the node. -/
def QuietWrite (env : TimerEnv) (index : Nat) (write : TimerNode C → TimerNode C)
    (t : HeapTimer C) : Prop :=
  ∀ t₁, t.writeNode index write = .ok t₁ → t₁.Quiet env index

instance (env : TimerEnv) (index : Nat) (write : TimerNode C → TimerNode C) (t : HeapTimer C) :
    Decidable (t.QuietWrite env index write) :=
  match h : t.writeNode index write with
  | .ok t₁ => decidable_of_iff (t₁.Quiet env index) (by simp [QuietWrite, h])
  | .error _ => isTrue (by simp [QuietWrite, h])

/-- The same for `DeleteNode`. -/
def QuietDelete (env : TimerEnv) (index : Nat) (t : HeapTimer C) : Prop :=
  ∀ t₁, t.takeOut index = .ok t₁ → t₁.Quiet env index

instance (env : TimerEnv) (index : Nat) (t : HeapTimer C) : Decidable (t.QuietDelete env index) :=
  match h : t.takeOut index with
  | .ok t₁ => decidable_of_iff (t₁.Quiet env index) (by simp [QuietDelete, h])
  | .error _ => isTrue (by simp [QuietDelete, h])

/-- The same for every turn of `Tick` that removes a node. -/
def QuietTickLoop (envs : Nat → TimerEnv) : Nat → Nat → HeapTimer C → Prop
  | 0, _, _ => True
  | fuel + 1, turn, t =>
      ∀ node, t.heap.head? = some node → ¬ 0 < node.remaining (envs turn) →
        t.QuietDelete (envs turn) 0 ∧
          ∀ t₁, t.deleteNode (envs turn) 0 = .ok t₁ → QuietTickLoop envs fuel (turn + 1) t₁

instance decidableQuietTickLoop (envs : Nat → TimerEnv) :
    ∀ (fuel turn : Nat) (t : HeapTimer C), Decidable (QuietTickLoop envs fuel turn t)
  | 0, _, _ => isTrue trivial
  | fuel + 1, turn, t =>
      match hhead : t.heap.head? with
      | none => isTrue (by simp [QuietTickLoop, hhead])
      | some node =>
          if hremaining : 0 < node.remaining (envs turn) then
            isTrue (by simp [QuietTickLoop, hhead, hremaining])
          else
            match hdelete : t.deleteNode (envs turn) 0 with
            | .error _ =>
                decidable_of_iff (t.QuietDelete (envs turn) 0)
                  (by simp [QuietTickLoop, hhead, not_lt.mp hremaining, hdelete])
            | .ok t₁ =>
                have := decidableQuietTickLoop envs fuel (turn + 1) t₁
                decidable_of_iff
                  (t.QuietDelete (envs turn) 0 ∧ QuietTickLoop envs fuel (turn + 1) t₁)
                  (by simp [QuietTickLoop, hhead, not_lt.mp hremaining, hdelete])

def QuietTick (envs : Nat → TimerEnv) (t : HeapTimer C) : Prop :=
  QuietTickLoop envs t.heap.length 0 t

instance (envs : Nat → TimerEnv) (t : HeapTimer C) : Decidable (t.QuietTick envs) := by
  unfold QuietTick
  infer_instance

/-! ## §6  Re-arming, deleting, expiring -/

/-- The node at `index` has been overwritten with `node`; the heap is kept unless the
new deadline is below the root's. -/
structure Rewritten (index : Nat) (node : TimerNode C) (t t' : HeapTimer C) : Prop where
  perm : t'.heap.Perm (t.heap.set index node)
  keys : (t.fdHeapMap node.fd).isSome → t.Keyed → ∀ fd,
    (t'.fdHeapMap fd).isSome = (t.fdHeapMap fd).isSome
  heap : t.IsHeap → (0 < index → t.key 0 ≤ node.expires) → t'.IsHeap

theorem writeNode_eq {t : HeapTimer C} {index : Nat} {write : TimerNode C → TimerNode C}
    (hi : index < t.heap.length) :
    t.writeNode index write = .ok { t with heap := t.heap.set index (write t.heap[index]) } := by
  rw [writeNode, List.getElem?_eq_getElem hi]

theorem key_set_ne {t : HeapTimer C} {index k : Nat} {node : TimerNode C} (hk : k ≠ index) :
    ({ t with heap := t.heap.set index node } : HeapTimer C).key k = t.key k := by
  simp only [key]
  rw [List.getElem?_set_ne (Ne.symm hk)]

theorem rewrite_spec (env : TimerEnv) {t : HeapTimer C} {index : Nat}
    (hi : index < t.heap.length) {write : TimerNode C → TimerNode C}
    (hq : t.QuietWrite env index write) :
    ∃ t', (t.writeNode index write >>= fun t₁ => t₁.upOrDown env index) = .ok t' ∧
      Rewritten index (write t.heap[index]) t t' := by
  obtain ⟨t', hok, hmoved, hheap⟩ := upOrDown_spec env (hq _ (writeNode_eq hi))
  refine ⟨t', by rw [writeNode_eq hi]; exact hok, hmoved.perm, ?_, ?_⟩
  · intro hnode hk
    apply hmoved.keys
    intro node hmem
    rcases List.mem_or_eq_of_mem_set hmem with hmem | rfl
    · exact hk node hmem
    · exact hnode
  · intro ho hle
    apply hheap
    · rw [List.length_set]
      exact ho.but fun k _ hk => key_set_ne hk
    · intro hpos _
      have hnode : ({ t with heap := t.heap.set index (write t.heap[index]) } :
          HeapTimer C).key index = (write t.heap[index]).expires :=
        key_of_get (List.getElem?_set_self hi)
      rw [key_set_ne (ne_of_lt hpos), hnode]
      exact hle hpos

/-- A node has been added; the heap is kept unless its deadline is below the root's. -/
structure Pushed (node : TimerNode C) (t t' : HeapTimer C) : Prop where
  perm : t'.heap.Perm (t.heap ++ [node])
  keys : t.Keyed → ∀ fd,
    (t'.fdHeapMap fd).isSome = (decide (fd = node.fd) || (t.fdHeapMap fd).isSome)
  heap : t.IsHeap → (t.heap ≠ [] → t.key 0 ≤ node.expires) → t'.IsHeap

theorem push_spec (env : TimerEnv) {t : HeapTimer C} {node : TimerNode C}
    (hq : (t.pushNode node).QuietUp env t.heap.length) :
    ∃ t', (t.pushNode node).percolateUp env t.heap.length = .ok t' ∧ Pushed node t t' := by
  obtain ⟨t', hok, hmoved, hheap⟩ := percolateUp_spec env hq
  have hmap : ∀ fd, ((t.pushNode node).fdHeapMap fd).isSome =
      (decide (fd = node.fd) || (t.fdHeapMap fd).isSome) := by
    intro fd
    by_cases hfd : fd = node.fd
    · subst hfd
      simp [pushNode]
    · simp only [pushNode, Function.update_of_ne hfd, decide_eq_false hfd, Bool.false_or]
  have hold : ∀ k, k < t.heap.length → (t.pushNode node).key k = t.key k := by
    intro k hk
    simp only [key, pushNode]
    rw [List.getElem?_append_left hk]
  refine ⟨t', hok, hmoved.perm, ?_, ?_⟩
  · intro hk fd
    rw [← hmap]
    apply hmoved.keys
    intro node' hmem
    rw [hmap]
    rcases List.mem_append.mp hmem with hmem | hmem
    · rw [hk node' hmem, Bool.or_true]
    · rw [List.mem_singleton.mp hmem, decide_eq_true rfl, Bool.true_or]
  · intro ho hle
    apply hheap
    · show OrderedButAbove (t.heap ++ [node]).length _ _
      rw [List.length_append]
      exact ho.push hold
    · intro hpos _
      have hnew : (t.pushNode node).key t.heap.length = node.expires := by
        apply key_of_get
        simp only [pushNode]
        rw [List.getElem?_append_right (le_refl _), Nat.sub_self]
        rfl
      rw [hold 0 hpos, hnew]
      exact hle (List.length_pos_iff.mp hpos)

/-- A node has been removed. -/
structure Deleted (node : TimerNode C) (t t' : HeapTimer C) : Prop where
  perm : t.heap.Perm (node :: t'.heap)
  keys : (t.heap.map TimerNode.fd).Nodup → t.Keyed → ∀ fd,
    (t'.fdHeapMap fd).isSome = (decide (fd ≠ node.fd) && (t.fdHeapMap fd).isSome)
  heap : t.IsHeap → t'.IsHeap

theorem Deleted.length_lt {node : TimerNode C} {t t' : HeapTimer C} (h : Deleted node t t') :
    t'.heap.length < t.heap.length := by
  rw [h.perm.length_eq, List.length_cons]
  exact Nat.lt_succ_self _

/-- The last node has taken the place of the one at `index`, and its entry says where it was. -/
theorem takeOut_spec {t : HeapTimer C} {index : Nat} (hi : index < t.heap.length) :
    ∃ t₁, t.takeOut index = .ok t₁ ∧ t.heap.Perm (t.heap[index] :: t₁.heap) ∧
      (∃ hlast : t.heap.length - 1 < t.heap.length, t₁.fdHeapMap = Function.update
        (Function.update t.fdHeapMap t.heap[t.heap.length - 1].fd (some (t.heap.length - 1)))
          t.heap[index].fd none) ∧
      t₁.heap.length = t.heap.length - 1 ∧
      (∀ k, k < t.heap.length - 1 →
        t₁.heap[k]? = t.heap[Equiv.swap index (t.heap.length - 1) k]?) := by
  have hlast : t.heap.length - 1 < t.heap.length := Nat.sub_lt (Nat.zero_lt_of_lt hi) Nat.one_pos
  obtain ⟨t₀, hok, hperm, hget, hmap⟩ := swapNode_spec hi hlast
  have hback : t₀.heap.getLast? = some t.heap[index] := by
    rw [List.getLast?_eq_getElem?, hperm.length_eq, hget, Equiv.swap_apply_right,
      List.getElem?_eq_getElem hi]
  refine ⟨{ heap := t₀.heap.dropLast,
            fdHeapMap := Function.update t₀.fdHeapMap t.heap[index].fd none },
    ?_, ?_, ?_, by rw [List.length_dropLast, hperm.length_eq], ?_⟩
  · simp only [takeOut, hok, bind, Except.bind, hback]
    rfl
  · have hsplit : t₀.heap.dropLast ++ [t.heap[index]] = t₀.heap :=
      List.dropLast_append_getLast? _ hback
    apply hperm.symm.trans
    rw [← hsplit, List.dropLast_concat]
    exact List.perm_append_singleton _ _
  · refine ⟨hlast, ?_⟩
    simp only [hmap]
    exact Function.update_idem _ _ _
  · intro k hlt
    rw [← hget, List.getElem?_dropLast, hperm.length_eq, if_pos hlt]

/-- The entry of the node is gone, and no other one. -/
theorem takeOut_keys {t t₁ : HeapTimer C} {i j : Nat} (hi : i < t.heap.length)
    (hj : j < t.heap.length) (hmap : t₁.fdHeapMap = Function.update
      (Function.update t.fdHeapMap t.heap[j].fd (some j)) t.heap[i].fd none) (hk : t.Keyed)
    (fd : Int) :
    (t₁.fdHeapMap fd).isSome = (decide (fd ≠ t.heap[i].fd) && (t.fdHeapMap fd).isSome) := by
  rw [hmap]
  by_cases hfd : fd = t.heap[i].fd
  · rw [hfd, Function.update_self, decide_eq_false (fun hne => hne rfl)]
    rfl
  · rw [Function.update_of_ne hfd, isSome_update (hk _ (List.getElem_mem hj)), decide_eq_true hfd,
      Bool.true_and]

theorem takeOut_order {t t₁ : HeapTimer C} {index : Nat} (ho : t.IsHeap)
    (hlen : t₁.heap.length = t.heap.length - 1)
    (hget : ∀ k, k < t.heap.length - 1 →
      t₁.heap[k]? = t.heap[Equiv.swap index (t.heap.length - 1) k]?) :
    OrderedBut t₁.heap.length t₁.key index ∧
      (0 < index → index < t₁.heap.length → t₁.key 0 ≤ t₁.key index) := by
  have hkey : ∀ k, k < t.heap.length - 1 → k ≠ index → t₁.key k = t.key k := by
    intro k hk hki
    rw [key, hget k hk, Equiv.swap_apply_of_ne_of_ne hki (ne_of_lt hk)]
    rfl
  rw [hlen]
  constructor
  · exact (ho.mono (Nat.sub_le _ _)).but hkey
  · intro hpos hin
    have hlast : t₁.key index = t.key (t.heap.length - 1) := by
      rw [key, hget index hin, Equiv.swap_apply_left]
      rfl
    rw [hkey 0 (lt_trans hpos hin) (ne_of_lt hpos), hlast]
    exact ho.root_le _ (by omega)

/-- `DeleteNode` removes the node at the index, and keeps the heap. -/
theorem deleteNode_spec (env : TimerEnv) {t : HeapTimer C} {index : Nat}
    (hi : index < t.heap.length) (hq : t.QuietDelete env index) :
    ∃ t', t.deleteNode env index = .ok t' ∧ Deleted t.heap[index] t t' := by
  obtain ⟨t₁, htake, hperm, ⟨hlast, hmap⟩, hlen, hget⟩ := takeOut_spec hi
  have hkeys := takeOut_keys hi hlast hmap
  obtain ⟨t', hok, hmoved, hheap⟩ := upOrDown_spec env (hq t₁ htake)
  refine ⟨t', by simp only [deleteNode, htake, bind, Except.bind]; exact hok, ?_⟩
  constructor
  case perm => exact hperm.trans (hmoved.perm.symm.cons _)
  case keys =>
    intro hnodup hk fd
    rw [← hkeys hk]
    apply hmoved.keys
    intro node hnode
    have hnodup' : (t.heap[index].fd :: t₁.heap.map TimerNode.fd).Nodup :=
      (hperm.map TimerNode.fd).nodup_iff.mp hnodup
    have hne : node.fd ≠ t.heap[index].fd := by
      rintro heq
      apply (List.nodup_cons.mp hnodup').1
      rw [← heq]
      exact List.mem_map_of_mem hnode
    rw [hkeys hk, decide_eq_true hne, Bool.true_and]
    exact hk node (hperm.symm.subset (List.mem_cons_of_mem _ hnode))
  case heap =>
    intro ho
    obtain ⟨hbut, hroot⟩ := takeOut_order ho hlen hget
    exact hheap hbut hroot

/-- The turns of `Tick` that remove a node, and the reason it stops. -/
inductive Ticks (envs : Nat → TimerEnv) :
    Nat → HeapTimer C → List (TimerNode C) → HeapTimer C → Prop
  | stop {turn : Nat} {t : HeapTimer C} :
      (∀ node, t.heap.head? = some node → 0 < node.remaining (envs turn)) → Ticks envs turn t [] t
  | fire {turn : Nat} {t t₁ t' : HeapTimer C} {node : TimerNode C} {nodes : List (TimerNode C)} :
      t.heap.head? = some node → node.remaining (envs turn) ≤ 0 → Deleted node t t₁ →
        Ticks envs (turn + 1) t₁ nodes t' → Ticks envs turn t (node :: nodes) t'

theorem tickLoop_ticks (envs : Nat → TimerEnv) :
    ∀ (fuel turn : Nat) (t : HeapTimer C), t.heap.length ≤ fuel →
      QuietTickLoop envs fuel turn t →
      ∃ t' nodes, tickLoop envs fuel turn t = .ok (t', nodes.map TimerNode.cb) ∧
        Ticks envs turn t nodes t' := by
  intro fuel
  induction fuel with
  | zero =>
      intro turn t hfuel _
      have hnil : t.heap = [] := List.length_eq_zero_iff.mp (Nat.le_zero.mp hfuel)
      refine ⟨t, [], rfl, Ticks.stop ?_⟩
      intro node hnode
      rw [hnil] at hnode
      cases hnode
  | succ fuel ih =>
      intro turn t hfuel hq
      rw [tickLoop]
      cases hheap : t.heap with
      | nil =>
          refine ⟨t, [], rfl, Ticks.stop ?_⟩
          intro node hnode
          rw [hheap] at hnode
          cases hnode
      | cons node rest =>
          have hhead : t.heap.head? = some node := by rw [hheap]; rfl
          by_cases hremaining : 0 < node.remaining (envs turn)
          · refine ⟨t, [], if_pos hremaining, Ticks.stop ?_⟩
            intro node' hnode'
            rw [hhead] at hnode'
            cases hnode'
            exact hremaining
          · obtain ⟨hdel, hrest⟩ := hq node hhead hremaining
            have hlen : 0 < t.heap.length := by rw [hheap]; exact Nat.succ_pos _
            obtain ⟨t₁, hok, hdeleted⟩ := deleteNode_spec (envs turn) hlen hdel
            have hroot : t.heap[0] = node := by
              rw [List.head?_eq_getElem?, List.getElem?_eq_getElem hlen] at hhead
              exact Option.some.inj hhead
            rw [hroot] at hdeleted
            have hlen₁ : t₁.heap.length ≤ fuel :=
              Nat.le_of_lt_succ (lt_of_lt_of_le hdeleted.length_lt hfuel)
            obtain ⟨t', nodes, hloop, hticks⟩ := ih (turn + 1) t₁ hlen₁ (hrest t₁ hok)
            refine ⟨t', node :: nodes, ?_, Ticks.fire hhead (not_lt.mp hremaining) hdeleted hticks⟩
            simp only [if_neg hremaining, hok, hloop, bind, Except.bind]
            rfl

theorem tick_ticks {envs : Nat → TimerEnv} {t : HeapTimer C} (hq : t.QuietTick envs) :
    ∃ t' nodes, t.tick envs = .ok (t', nodes.map TimerNode.cb) ∧ Ticks envs 0 t nodes t' :=
  tickLoop_ticks envs t.heap.length 0 t (le_refl _) hq

/-! ## §7  One call -/

/-- The node the call writes or deletes is in the heap, and sifting stays there. -/
def StaysInside (t : HeapTimer C) : TimerCall C → Prop
  | .addTimer env fd timeout cb =>
      match t.fdHeapMap fd with
      | some index =>
          index < t.heap.length ∧ t.QuietWrite env index (TimerNode.rearm env timeout cb)
      | none => (t.pushNode ⟨fd, deadline env timeout, cb⟩).QuietUp env t.heap.length
  | .adjustTimer env fd timeout =>
      t.indexOf fd < t.heap.length ∧
        (t.touchIndex fd).QuietWrite env (t.indexOf fd) (TimerNode.postpone env timeout)
  | .doRightNow env fd =>
      match t.fdHeapMap fd with
      | some index => index < t.heap.length ∧ t.QuietDelete env index
      | none => True
  | .tick envs => t.QuietTick envs
  | .nextTickTime envs _ => t.QuietTick envs
  | .clear => True

instance decidableStaysInside (t : HeapTimer C) : ∀ call, Decidable (t.StaysInside call)
  | .addTimer env fd timeout cb =>
      match hmap : t.fdHeapMap fd with
      | some index =>
          decidable_of_iff
            (index < t.heap.length ∧ t.QuietWrite env index (TimerNode.rearm env timeout cb))
            (by simp [StaysInside, hmap])
      | none =>
          decidable_of_iff
            ((t.pushNode ⟨fd, deadline env timeout, cb⟩).QuietUp env t.heap.length)
            (by simp [StaysInside, hmap])
  | .adjustTimer _ _ _ => inferInstanceAs (Decidable (_ ∧ _))
  | .doRightNow env fd =>
      match hmap : t.fdHeapMap fd with
      | some index =>
          decidable_of_iff (index < t.heap.length ∧ t.QuietDelete env index)
            (by simp [StaysInside, hmap])
      | none => isTrue (by simp [StaysInside, hmap])
  | .tick envs => inferInstanceAs (Decidable (t.QuietTick envs))
  | .nextTickTime envs _ => inferInstanceAs (Decidable (t.QuietTick envs))
  | .clear => isTrue trivial

/-- What a call does to the nodes, and what it answers. -/
def Does (t : HeapTimer C) : TimerCall C → TimerAnswer C → HeapTimer C → Prop
  | .addTimer env fd timeout cb, answer, t' =>
      answer = ⟨[], none⟩ ∧
        ((∃ (index : Nat) (hi : index < t.heap.length), t.fdHeapMap fd = some index ∧
            Rewritten index (TimerNode.rearm env timeout cb t.heap[index]) t t') ∨
          (t.fdHeapMap fd = none ∧ Pushed ⟨fd, deadline env timeout, cb⟩ t t'))
  | .adjustTimer env fd timeout, answer, t' =>
      answer = ⟨[], none⟩ ∧ ∃ hi : t.indexOf fd < t.heap.length,
        Rewritten (t.indexOf fd) (TimerNode.postpone env timeout t.heap[t.indexOf fd])
          (t.touchIndex fd) t'
  | .doRightNow _ fd, answer, t' =>
      (∃ (index : Nat) (hi : index < t.heap.length), t.fdHeapMap fd = some index ∧
          answer = ⟨[t.heap[index].cb], none⟩ ∧ Deleted t.heap[index] t t') ∨
        (t.fdHeapMap fd = none ∧ answer = ⟨[], none⟩ ∧ t' = t)
  | .tick envs, answer, t' =>
      ∃ nodes, answer = ⟨nodes.map TimerNode.cb, none⟩ ∧ Ticks envs 0 t nodes t'
  | .nextTickTime envs env, answer, t' =>
      ∃ nodes, answer = ⟨nodes.map TimerNode.cb, some (t'.timeLeft env)⟩ ∧ Ticks envs 0 t nodes t'
  | .clear, answer, t' => answer = ⟨[], none⟩ ∧ t' = new

/-- **One call** that stays in the heap is made. -/
theorem timerStep_does {t : HeapTimer C} (call : TimerCall C) (hcall : t.StaysInside call) :
    ∃ t' answer, timerStep t call = some (t', answer) ∧ t.Does call answer t' := by
  cases call with
  | addTimer env fd timeout cb =>
      cases hmap : t.fdHeapMap fd with
      | some index =>
          simp only [StaysInside, hmap] at hcall
          obtain ⟨hi, hq⟩ := hcall
          obtain ⟨t', hok, hrewritten⟩ := rewrite_spec env hi hq
          refine ⟨t', ⟨[], none⟩, ?_, rfl, Or.inl ⟨index, hi, hmap, hrewritten⟩⟩
          simp only [timerStep, addTimer, hmap]
          rw [hok]
          rfl
      | none =>
          simp only [StaysInside, hmap] at hcall
          obtain ⟨t', hok, hpushed⟩ := push_spec env hcall
          refine ⟨t', ⟨[], none⟩, ?_, rfl, Or.inr ⟨hmap, hpushed⟩⟩
          simp only [timerStep, addTimer, hmap, hok]
          rfl
  | adjustTimer env fd timeout =>
      obtain ⟨hi, hq⟩ := hcall
      obtain ⟨t', hok, hrewritten⟩ := @rewrite_spec C env (t.touchIndex fd) _ hi _ hq
      refine ⟨t', ⟨[], none⟩, ?_, rfl, hi, hrewritten⟩
      simp only [timerStep, adjustTimer]
      rw [hok]
      rfl
  | doRightNow env fd =>
      cases hmap : t.fdHeapMap fd with
      | some index =>
          simp only [StaysInside, hmap] at hcall
          obtain ⟨hi, hq⟩ := hcall
          obtain ⟨t', hok, hdeleted⟩ := deleteNode_spec env hi hq
          refine ⟨t', ⟨[t.heap[index].cb], none⟩, ?_, Or.inl ⟨index, hi, hmap, rfl, hdeleted⟩⟩
          simp only [timerStep, doRightNow, hmap, List.getElem?_eq_getElem hi, hok, bind,
            Except.bind]
          rfl
      | none =>
          refine ⟨t, ⟨[], none⟩, ?_, Or.inr ⟨hmap, rfl, rfl⟩⟩
          simp only [timerStep, doRightNow, hmap]
          rfl
  | tick envs =>
      obtain ⟨t', nodes, hok, hticks⟩ := tick_ticks hcall
      refine ⟨t', ⟨nodes.map TimerNode.cb, none⟩, ?_, nodes, rfl, hticks⟩
      simp only [timerStep, hok]
      rfl
  | nextTickTime envs env =>
      obtain ⟨t', nodes, hok, hticks⟩ := tick_ticks hcall
      refine ⟨t', ⟨nodes.map TimerNode.cb, some (t'.timeLeft env)⟩, ?_, nodes, rfl, hticks⟩
      simp only [timerStep, nextTickTime, hok, bind, Except.bind]
      rfl
  | clear => exact ⟨t.clear, ⟨[], none⟩, rfl, rfl, rfl⟩

/-- A clock, with small words in front of `heap_` and large ones behind it. -/
def quietEnv (now : Int) : TimerEnv :=
  { now := now, mem := fun index => some (if index < 2 ^ 62 then 2 ^ 62 else 0) }

end HeapTimer

end WhiteWebServer
