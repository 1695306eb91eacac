import Mathlib.Data.Finset.Card
import Mathlib.Logic.Function.Iterate

/-!
# Orbits in a finite set

An iteration that stays in a finite set comes back to a point it has been at, so its
first points are all it has.
-/

universe u

namespace Orbit

variable {α : Type u} {f : α → α} {x : α}

/-- A point that comes again makes each later point an earlier one. -/
theorem iterate_sub {m n k : ℕ} (h : f^[m] x = f^[n] x) (hmn : m < n) (hnk : n ≤ k) :
    f^[k - (n - m)] x = f^[k] x := by
  have hback : k - (n - m) = (k - n) + m := by omega
  have hhere : k = (k - n) + n := by omega
  calc f^[k - (n - m)] x = f^[k - n] (f^[m] x) := by rw [hback, Function.iterate_add_apply]
    _ = f^[k - n] (f^[n] x) := by rw [h]
    _ = f^[k] x := by rw [← Function.iterate_add_apply, ← hhere]

/-- Among one point more than there are, one comes again. -/
theorem exists_repeat {s : Finset α} (h : ∀ n, f^[n] x ∈ s) :
    ∃ m n, m < n ∧ n ≤ s.card ∧ f^[m] x = f^[n] x := by
  have hcard : s.card < (Finset.range (s.card + 1)).card := by
    rw [Finset.card_range]
    exact Nat.lt_succ_self _
  obtain ⟨m, hm, n, hn, hne, heq⟩ :=
    Finset.exists_ne_map_eq_of_card_lt_of_maps_to hcard (fun k _ => h k)
  rw [Finset.mem_range, Nat.lt_succ_iff] at hm hn
  rcases Nat.lt_or_gt_of_ne hne with hlt | hgt
  · exact ⟨m, n, hlt, hn, heq⟩
  · exact ⟨n, m, hgt, hm, heq.symm⟩

/-- Each point of the orbit is one of its first. -/
theorem exists_early {s : Finset α} (h : ∀ n, f^[n] x ∈ s) (k : ℕ) :
    ∃ m < s.card, f^[m] x = f^[k] x := by
  obtain ⟨m, n, hmn, hn, heq⟩ := exists_repeat h
  induction k using Nat.strong_induction_on with
  | _ k ih =>
      by_cases hk : k < s.card
      · exact ⟨k, hk, rfl⟩
      · have hnk : n ≤ k := hn.trans (Nat.not_lt.mp hk)
        obtain ⟨j, hj, hsame⟩ := ih (k - (n - m)) (by omega)
        exact ⟨j, hj, hsame.trans (iterate_sub heq hmn hnk)⟩

end Orbit
