import Mathlib.Data.List.Basic

/-!
# Flat storage

A block of storage is a list of cells. `overwrite` is the effect of copying a
run of cells to an offset (`std::copy` into a vector, `bzero` on a part of
it); `window` is the half-open span `[i, j)`. The lemmas compute both on
storage written as `left ++ middle ++ right`, the shape in which a buffer's
owner knows its contents.
-/

universe u

namespace Storage

variable {α : Type u}

/-- Copy `xs` over the cells from offset `k` on; what does not fit is lost. -/
def overwrite (l : List α) (k : Nat) (xs : List α) : List α :=
  l.take k ++ (xs.take (l.length - k) ++ l.drop (k + xs.length))

/-- The cells of the half-open span `[i, j)`. -/
def window (l : List α) (i j : Nat) : List α := (l.drop i).take (j - i)

theorem overwrite_append {left rest xs : List α} {k : Nat} (hk : k = left.length)
    (hxs : xs.length ≤ rest.length) :
    overwrite (left ++ rest) k xs = left ++ (xs ++ rest.drop xs.length) := by
  subst hk
  simp [overwrite, List.drop_append, List.take_of_length_le hxs]

theorem length_overwrite {l xs : List α} {k : Nat} (h : k ≤ l.length) :
    (overwrite l k xs).length = l.length := by
  simp only [overwrite, List.length_append, List.length_take, List.length_drop]
  omega

theorem window_append {left mid right : List α} {i j : Nat} (hi : i = left.length)
    (hj : j = left.length + mid.length) :
    window (left ++ (mid ++ right)) i j = mid := by
  subst hi hj
  simp [window]

end Storage
