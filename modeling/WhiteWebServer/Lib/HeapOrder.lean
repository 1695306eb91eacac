import Mathlib.Data.Nat.Basic
import Mathlib.Logic.Equiv.Basic
import Mathlib.Order.Lattice

/-!
# Array heaps

A binary heap in an array is a function from positions to keys, of which the
first `n` count; position `i + 1` hangs below `i / 2`. `Ordered` is the heap
order. Sifting exchanges a position with its parent, or with its least child,
until the order holds: `OrderedButAbove j` and `OrderedButBelow j` are what
holds meanwhile. Sifting down needs no more than the subtree it starts from,
where `OrderedUnderBut r j` is what holds. `OrderedBut j` is what is left when
the key at `j` has been overwritten.
-/

universe u

namespace HeapOrder

variable {K : Type u}

def parent (i : ℕ) : ℕ := (i - 1) / 2

theorem parent_lt {i : ℕ} (hi : 0 < i) : parent i < i := by
  unfold parent
  omega

theorem parent_left (i : ℕ) : parent (2 * i + 1) = i := by
  unfold parent
  omega

theorem parent_right (i : ℕ) : parent (2 * i + 2) = i := by
  unfold parent
  omega

theorem eq_child {i j : ℕ} (hi : 0 < i) (hp : parent i = j) :
    i = 2 * j + 1 ∨ i = 2 * j + 2 := by
  unfold parent at hp
  omega

/-- The keys with those at `i` and `j` exchanged. -/
def exchange (h : ℕ → K) (i j : ℕ) : ℕ → K := fun k => h (Equiv.swap i j k)

@[simp] theorem exchange_left (h : ℕ → K) (i j : ℕ) : exchange h i j i = h j :=
  congrArg h (Equiv.swap_apply_left i j)

@[simp] theorem exchange_right (h : ℕ → K) (i j : ℕ) : exchange h i j j = h i :=
  congrArg h (Equiv.swap_apply_right i j)

theorem exchange_other (h : ℕ → K) {i j k : ℕ} (hi : k ≠ i) (hj : k ≠ j) :
    exchange h i j k = h k :=
  congrArg h (Equiv.swap_apply_of_ne_of_ne hi hj)

variable [LinearOrder K]

/-- No key is below its parent's. -/
def Ordered (n : ℕ) (h : ℕ → K) : Prop := ∀ i, 0 < i → i < n → h (parent i) ≤ h i

/-- Ordered away from `j`, and the children of `j` are not below its parent. -/
structure OrderedBut (n : ℕ) (h : ℕ → K) (j : ℕ) : Prop where
  away : ∀ i, 0 < i → i < n → i ≠ j → parent i ≠ j → h (parent i) ≤ h i
  across : 0 < j → ∀ i, 0 < i → i < n → parent i = j → h (parent j) ≤ h i

/-- Only the key at `j` may be below its parent's. -/
structure OrderedButAbove (n : ℕ) (h : ℕ → K) (j : ℕ) : Prop where
  rest : ∀ i, 0 < i → i < n → i ≠ j → h (parent i) ≤ h i
  across : 0 < j → ∀ i, 0 < i → i < n → parent i = j → h (parent j) ≤ h i

/-- Only the key at `j` may be above one of its children's. -/
structure OrderedButBelow (n : ℕ) (h : ℕ → K) (j : ℕ) : Prop where
  rest : ∀ i, 0 < i → i < n → parent i ≠ j → h (parent i) ≤ h i
  across : 0 < j → ∀ i, 0 < i → i < n → parent i = j → h (parent j) ≤ h i

/-- The root of an ordered heap has the least key. -/
theorem Ordered.root_le {n : ℕ} {h : ℕ → K} (ho : Ordered n h) :
    ∀ i, i < n → h 0 ≤ h i := by
  intro i
  induction i using Nat.strong_induction_on with
  | _ i ih =>
      intro hn
      rcases Nat.eq_zero_or_pos i with rfl | hi
      · exact le_refl _
      · exact le_trans (ih (parent i) (parent_lt hi) (lt_trans (parent_lt hi) hn)) (ho i hi hn)

theorem Ordered.mono {n m : ℕ} {h : ℕ → K} (ho : Ordered n h) (hmn : m ≤ n) : Ordered m h :=
  fun i hi him => ho i hi (lt_of_lt_of_le him hmn)

theorem Ordered.congr {n : ℕ} {h h' : ℕ → K} (ho : Ordered n h)
    (heq : ∀ i, i < n → h' i = h i) : Ordered n h' := by
  intro i hi hn
  rw [heq i hn, heq (parent i) (lt_trans (parent_lt hi) hn)]
  exact ho i hi hn

/-- Overwriting the key at `j` leaves the order of the rest. -/
theorem Ordered.but {n : ℕ} {h h' : ℕ → K} (ho : Ordered n h) {j : ℕ}
    (heq : ∀ i, i < n → i ≠ j → h' i = h i) : OrderedBut n h' j := by
  constructor
  case away =>
    intro i hi hn hij hpj
    rw [heq i hn hij, heq (parent i) (lt_trans (parent_lt hi) hn) hpj]
    exact ho i hi hn
  case across =>
    intro hj i hi hn hpi
    have hji : j < i := by
      rw [← hpi]
      exact parent_lt hi
    have hpj : parent j < j := parent_lt hj
    rw [heq i hn (ne_of_gt hji), heq (parent j) (lt_trans hpj (lt_trans hji hn)) (ne_of_lt hpj)]
    have hup : h (parent j) ≤ h j := ho j hj (lt_trans hji hn)
    have hdown : h j ≤ h i := by
      have := ho i hi hn
      rwa [hpi] at this
    exact le_trans hup hdown

/-- A new last position may only be below its parent. -/
theorem Ordered.push {n : ℕ} {h h' : ℕ → K} (ho : Ordered n h)
    (heq : ∀ i, i < n → h' i = h i) : OrderedButAbove (n + 1) h' n := by
  constructor
  case rest =>
    intro i hi hn hin
    have hlt : i < n := lt_of_le_of_ne (Nat.lt_succ_iff.mp hn) hin
    rw [heq i hlt, heq (parent i) (lt_trans (parent_lt hi) hlt)]
    exact ho i hi hlt
  case across =>
    intro _ i hi hn hpi
    have := parent_lt hi
    omega

/-! ## Which way to sift -/

/-- Where no child of `j` is below it, only its parent may be above it. -/
theorem OrderedBut.above {n : ℕ} {h : ℕ → K} {j : ℕ} (ho : OrderedBut n h j)
    (hle : ∀ i, 0 < i → i < n → parent i = j → h j ≤ h i) : OrderedButAbove n h j := by
  constructor
  case rest =>
    intro i hi hn hij
    by_cases hpj : parent i = j
    · rw [hpj]
      exact hle i hi hn hpj
    · exact ho.away i hi hn hij hpj
  case across => exact ho.across

/-- Where some child of `j` is below it, its parent is not above it. -/
theorem OrderedBut.below {n : ℕ} {h : ℕ → K} {j i : ℕ} (ho : OrderedBut n h j) (hi : 0 < i)
    (hn : i < n) (hpi : parent i = j) (hlt : h i < h j) : OrderedButBelow n h j := by
  constructor
  case rest =>
    intro k hk hkn hpk
    by_cases hkj : k = j
    · subst hkj
      exact le_of_lt (lt_of_le_of_lt (ho.across hk i hi hn hpi) hlt)
    · exact ho.away k hk hkn hkj hpk
  case across => exact ho.across

/-! ## Sifting up -/

theorem OrderedButAbove.done {n : ℕ} {h : ℕ → K} {j : ℕ} (ho : OrderedButAbove n h j)
    (hle : 0 < j → h (parent j) ≤ h j) : Ordered n h := by
  intro i hi hn
  by_cases hij : i = j
  · subst hij
    exact hle hi
  · exact ho.rest i hi hn hij

theorem OrderedButAbove.step {n : ℕ} {h : ℕ → K} {j : ℕ} (ho : OrderedButAbove n h j)
    (hj : 0 < j) (hn : j < n) (hle : h j ≤ h (parent j)) :
    OrderedButAbove n (exchange h (parent j) j) (parent j) := by
  have hpj : parent j < j := parent_lt hj
  constructor
  case rest =>
    intro i hi hin hip
    by_cases hij : i = j
    · -- the key that has moved down
      subst hij
      rw [exchange_left, exchange_right]
      exact hle
    · rw [exchange_other h hip hij]
      by_cases hpi : parent i = j
      · rw [hpi, exchange_right]
        exact ho.across hj i hi hin hpi
      · by_cases hpp : parent i = parent j
        · rw [hpp, exchange_left]
          have hsib := ho.rest i hi hin hij
          rw [hpp] at hsib
          exact le_trans hle hsib
        · rw [exchange_other h hpp hpi]
          exact ho.rest i hi hin hij
  case across =>
    intro hp i hi hin hpi
    have hgrand : h (parent (parent j)) ≤ h (parent j) :=
      ho.rest (parent j) hp (lt_trans hpj hn) (ne_of_lt hpj)
    have hpp : parent (parent j) < parent j := parent_lt hp
    rw [exchange_other h (ne_of_lt hpp) (ne_of_lt (lt_trans hpp hpj))]
    by_cases hij : i = j
    · subst hij
      rw [exchange_right]
      exact hgrand
    · have hip : i ≠ parent j := by
        intro heq
        have := parent_lt hi
        rw [hpi, heq] at this
        exact lt_irrefl _ this
      rw [exchange_other h hip hij]
      have hsib := ho.rest i hi hin hij
      rw [hpi] at hsib
      exact le_trans hgrand hsib

/-! ## Sifting down -/

/-- The position `i` is in the subtree of `r`. -/
inductive Under (r : ℕ) : ℕ → Prop
  | refl : Under r r
  | child {i : ℕ} : 0 < i → Under r (parent i) → Under r i

theorem Under.le {r i : ℕ} (h : Under r i) : r ≤ i := by
  induction h with
  | refl => exact le_refl r
  | child hi _ ih => exact le_trans ih (le_of_lt (parent_lt hi))

theorem Under.trans {r j i : ℕ} (hj : Under r j) (hi : Under j i) : Under r i := by
  induction hi with
  | refl => exact hj
  | child hpos _ ih => exact Under.child hpos ih

theorem Under.of_parent {i j : ℕ} (hi : 0 < i) (hp : parent i = j) : Under j i :=
  Under.child hi (hp ▸ Under.refl)

theorem under_zero (i : ℕ) : Under 0 i := by
  induction i using Nat.strong_induction_on with
  | _ i ih =>
      rcases Nat.eq_zero_or_pos i with rfl | hi
      · exact Under.refl
      · exact Under.child hi (ih (parent i) (parent_lt hi))

/-- Ordered in the subtree of `r`. -/
def OrderedUnder (n : ℕ) (h : ℕ → K) (r : ℕ) : Prop :=
  ∀ i, 0 < i → i < n → Under r (parent i) → h (parent i) ≤ h i

/-- In the subtree of `r` only the key at `j` may be above one of its children's. -/
structure OrderedUnderBut (n : ℕ) (h : ℕ → K) (r j : ℕ) : Prop where
  under : Under r j
  rest : ∀ i, 0 < i → i < n → Under r (parent i) → parent i ≠ j → h (parent i) ≤ h i
  across : j ≠ r → ∀ i, 0 < i → i < n → parent i = j → h (parent j) ≤ h i

theorem OrderedUnder.root_le {n r : ℕ} {h : ℕ → K} (ho : OrderedUnder n h r) {i : ℕ}
    (hi : Under r i) (hn : i < n) : h r ≤ h i := by
  induction hi with
  | refl => exact le_refl _
  | child hpos hp ih => exact le_trans (ih (lt_trans (parent_lt hpos) hn)) (ho _ hpos hn hp)

theorem OrderedUnderBut.done {n r j : ℕ} {h : ℕ → K} (ho : OrderedUnderBut n h r j)
    (hle : ∀ i, 0 < i → i < n → parent i = j → h j ≤ h i) : OrderedUnder n h r := by
  intro i hi hn hr
  by_cases hpi : parent i = j
  · rw [hpi]
    exact hle i hi hn hpi
  · exact ho.rest i hi hn hr hpi

theorem OrderedUnderBut.step {n r j c : ℕ} {h : ℕ → K} (ho : OrderedUnderBut n h r j)
    (hc : 0 < c) (hn : c < n) (hpc : parent c = j)
    (hleast : ∀ i, 0 < i → i < n → parent i = j → h c ≤ h i) (hle : h c ≤ h j) :
    OrderedUnderBut n (exchange h c j) r c := by
  have hjc : j < c := by
    rw [← hpc]
    exact parent_lt hc
  constructor
  case under => exact ho.under.trans (Under.of_parent hc hpc)
  case rest =>
    intro i hi hin hr hpi
    by_cases hic : i = c
    · -- the key that has moved down
      subst hic
      rw [hpc, exchange_left, exchange_right]
      exact hle
    · by_cases hij : i = j
      · have hpj : parent j < j := parent_lt (hij ▸ hi)
        have hne : j ≠ r := by
          intro hjr
          have hrp := hr.le
          rw [hij, ← hjr] at hrp
          exact absurd hpj (not_lt.mpr hrp)
        rw [hij, exchange_right, exchange_other h (ne_of_lt (lt_trans hpj hjc)) (ne_of_lt hpj)]
        exact ho.across hne c hc hn hpc
      · rw [exchange_other h hic hij]
        by_cases hpj : parent i = j
        · rw [hpj, exchange_right]
          exact hleast i hi hin hpj
        · rw [exchange_other h hpi hpj]
          exact ho.rest i hi hin hr hpj
  case across =>
    intro _ i hi hin hpi
    have hci : c < i := by
      rw [← hpi]
      exact parent_lt hi
    rw [hpc, exchange_right, exchange_other h (ne_of_gt hci) (ne_of_gt (lt_trans hjc hci))]
    have hr : Under r (parent i) := by
      rw [hpi]
      exact ho.under.trans (Under.of_parent hc hpc)
    have hchild := ho.rest i hi hin hr (by rw [hpi]; exact ne_of_gt hjc)
    rwa [hpi] at hchild

/-- The whole heap is the subtree of the root. -/
theorem OrderedButBelow.under {n : ℕ} {h : ℕ → K} {j : ℕ} (ho : OrderedButBelow n h j) :
    OrderedUnderBut n h 0 j :=
  ⟨under_zero j, fun i hi hn _ => ho.rest i hi hn, fun hj => ho.across (Nat.pos_of_ne_zero hj)⟩

theorem OrderedUnder.ordered {n : ℕ} {h : ℕ → K} (ho : OrderedUnder n h 0) : Ordered n h :=
  fun i hi hn => ho i hi hn (under_zero _)

end HeapOrder
