import WhiteWebServer.HeapTimer

/-!
# Repair of a subtree

`PercolateDown` needs no heap around the node it starts from. Where the nodes below that node
are in order among themselves, it puts the subtree in order and touches nothing else.
-/

namespace WhiteWebServer

open HeapOrder

namespace HeapTimer

variable {C : Type}

/-- The subtree of `index` is in order, its nodes are those it had, and every other node is in
its place. -/
structure Repairs (index : Nat) (t t' : HeapTimer C) : Prop where
  length : t'.heap.length = t.heap.length
  ordered : OrderedUnder t'.heap.length t'.key index
  permutes : ∃ σ : Equiv.Perm Nat, (∀ k, Under index k ↔ Under index (σ k)) ∧
    (∀ k, ¬ Under index k → σ k = k) ∧ ∀ k, t'.heap[k]? = t.heap[σ k]?
  outside : ∀ k, ¬ Under index k → t'.heap[k]? = t.heap[k]?
  least : ∀ k, k < t'.heap.length → Under index k → t'.key index ≤ t'.key k

/-- **`PercolateDown` repairs a subtree.** For every heap and every index, if each edge whose
parent is below `index` is in order: with any fuel from the number of nodes on, the loop ends,
and in the same heap. -/
theorem percolateDown_repairs (env : TimerEnv) (t : HeapTimer C) {index : Nat}
    (hbelow : ∀ i, 0 < i → i < t.heap.length → Under index (parent i) → parent i ≠ index →
      t.key (parent i) ≤ t.key i) :
    ∃ t', t.percolateDown env index = .ok t' ∧
      (∀ fuel, t.heap.length ≤ fuel → percolateDownLoop env fuel index t = .ok t') ∧
      Repairs index t t' := by
  obtain ⟨t', hloop, hmoved, hsifted, horder⟩ := percolateDownLoop_sifts index t
  have hordered : OrderedUnder t'.heap.length t'.key index :=
    horder index ⟨Under.refl, hbelow, fun hne => absurd rfl hne⟩
  have hfuel : ∀ fuel, t.heap.length ≤ fuel → percolateDownLoop env fuel index t = .ok t' :=
    fun fuel hle => hloop env fuel (le_trans hle (Nat.le_add_left _ _))
  refine ⟨t', hfuel _ (le_refl _), hfuel, ?_⟩
  constructor
  case length => exact hmoved.length
  case ordered => exact hordered
  case permutes =>
    obtain ⟨σ, hσ, hget⟩ := hsifted.places
    refine ⟨σ, fun k => ⟨under_of_fixes hσ, fun hk => ?_⟩, hσ, hget⟩
    by_contra hout
    rw [hσ k hout] at hk
    exact hout hk
  case outside => exact fun k hk => hsifted.outside hk
  case least => exact fun k hk hunder => hordered.root_le hunder hk

/-- Eight nodes; below 1 only the node at 1 is out of order, with a deadline that the node at 4
has too, and the root is not in order with either of its children. -/
def brokenAtOne : HeapTimer Nat :=
  { heap := [⟨10, 9, 0⟩, ⟨11, 5, 0⟩, ⟨12, 1, 0⟩, ⟨13, 3, 0⟩, ⟨14, 5, 0⟩, ⟨15, 8, 0⟩, ⟨16, 2, 0⟩,
      ⟨17, 4, 0⟩],
    fdHeapMap := fun _ => none }

theorem percolateDown_repairs_one :
    ∃ t', brokenAtOne.percolateDown ⟨0, fun _ => none⟩ 1 = .ok t' ∧
      (∀ fuel, brokenAtOne.heap.length ≤ fuel →
        percolateDownLoop ⟨0, fun _ => none⟩ fuel 1 brokenAtOne = .ok t') ∧
      Repairs 1 brokenAtOne t' := by
  apply percolateDown_repairs
  have hedges : ∀ i < 8, 1 < parent i → brokenAtOne.key (parent i) ≤ brokenAtOne.key i := by
    decide
  exact fun i _ hi hunder hne => hedges i hi (lt_of_le_of_ne hunder.le hne.symm)

end HeapTimer

end WhiteWebServer
