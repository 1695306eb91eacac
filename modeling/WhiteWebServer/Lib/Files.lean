import Mathlib.Data.Finmap
import Mathlib.Order.Interval.Finset.Nat

/-!
# Files: named contents

A directory as a finite map from names to contents. `append` opens a file for
appending and writes; `rename` replaces what has the new name; `firstFree` walks a
family of names to the first that no file has.

- `content_*`, `lookup_*`: what each operation leaves under each name.
- `firstFree_spec`: looking at as many names as there are files is enough.
-/

universe u v

abbrev Files (ν : Type u) (α : Type v) := Finmap fun _ : ν => List α

namespace Files

variable {ν : Type u} {α : Type v} [DecidableEq ν]

/-- What is under a name; nothing where there is no file. -/
def content (fs : Files ν α) (name : ν) : List α := (fs.lookup name).getD []

/-- Opening for appending, which makes the file, and writing at its end. -/
def append (name : ν) (xs : List α) (fs : Files ν α) : Files ν α :=
  fs.insert name (fs.content name ++ xs)

/-- The file gets another name, and what had that name is gone. -/
def rename (old new : ν) (fs : Files ν α) : Files ν α :=
  match fs.lookup old with
  | none => fs
  | some xs => (fs.erase old).insert new xs

/-- The first index from `k` on whose name is free, looking at `fuel` names at most. -/
def firstFree (name : Nat → ν) (fs : Files ν α) : Nat → Nat → Nat
  | 0, k => k
  | fuel + 1, k => if name k ∈ fs then firstFree name fs fuel (k + 1) else k

/-! ## Writing -/

theorem lookup_append_self (name : ν) (xs : List α) (fs : Files ν α) :
    (append name xs fs).lookup name = some (fs.content name ++ xs) :=
  Finmap.lookup_insert fs

theorem lookup_append_of_ne {name other : ν} (h : other ≠ name) (xs : List α) (fs : Files ν α) :
    (append name xs fs).lookup other = fs.lookup other :=
  Finmap.lookup_insert_of_ne fs h

theorem content_append_self (name : ν) (xs : List α) (fs : Files ν α) :
    (append name xs fs).content name = fs.content name ++ xs := by
  rw [content, lookup_append_self, Option.getD_some]

theorem content_of_lookup {fs : Files ν α} {name : ν} {xs : List α}
    (h : fs.lookup name = some xs) : fs.content name = xs := by
  rw [content, h, Option.getD_some]

/-! ## Renaming -/

theorem lookup_rename_new {fs : Files ν α} {old : ν} {xs : List α}
    (h : fs.lookup old = some xs) (new : ν) : (rename old new fs).lookup new = some xs := by
  rw [rename, h]
  exact Finmap.lookup_insert _

theorem lookup_rename_old {fs : Files ν α} {old : ν} {xs : List α}
    (h : fs.lookup old = some xs) {new : ν} (hne : old ≠ new) :
    (rename old new fs).lookup old = none := by
  rw [rename, h]
  exact (Finmap.lookup_insert_of_ne _ hne).trans (Finmap.lookup_erase old fs)

theorem lookup_rename_of_ne (fs : Files ν α) {old new other : ν} (hold : other ≠ old)
    (hnew : other ≠ new) : (rename old new fs).lookup other = fs.lookup other := by
  unfold rename
  cases fs.lookup old with
  | none => rfl
  | some xs => exact (Finmap.lookup_insert_of_ne _ hnew).trans (Finmap.lookup_erase_ne hold)

/-! ## The first free name -/

/-- All the names it walked over are taken. -/
theorem mem_of_lt_firstFree {name : Nat → ν} {fs : Files ν α} {fuel k j : Nat} (hk : k ≤ j)
    (hj : j < firstFree name fs fuel k) : name j ∈ fs := by
  induction fuel generalizing k with
  | zero => exact absurd hj (Nat.not_lt.mpr hk)
  | succ fuel ih =>
      rw [firstFree] at hj
      split at hj
      · rename_i htaken
        rcases Nat.eq_or_lt_of_le hk with rfl | hlt
        · exact htaken
        · exact ih hlt hj
      · exact absurd hj (Nat.not_lt.mpr hk)

/-- It stops at a free name unless it has looked at all it may. -/
theorem firstFree_stop (name : Nat → ν) (fs : Files ν α) (fuel k : Nat) :
    name (firstFree name fs fuel k) ∉ fs ∨ firstFree name fs fuel k = k + fuel := by
  induction fuel generalizing k with
  | zero => exact Or.inr rfl
  | succ fuel ih =>
      unfold firstFree
      split
      · rcases ih (k + 1) with hfree | heq
        · exact Or.inl hfree
        · right
          rw [heq, Nat.add_right_comm, Nat.add_assoc]
      · rename_i hfree
        exact Or.inl hfree

/-- Among one name more than there are files is a free one. -/
theorem firstFree_spec {name : Nat → ν} (hname : Function.Injective name) (fs : Files ν α)
    (k : Nat) :
    name (firstFree name fs fs.keys.card k) ∉ fs ∧
      ∀ j, k ≤ j → j < firstFree name fs fs.keys.card k → name j ∈ fs := by
  refine ⟨?_, fun j hk hj => mem_of_lt_firstFree hk hj⟩
  rcases firstFree_stop name fs fs.keys.card k with hfree | heq
  · exact hfree
  · intro htaken
    have hall : (Finset.Icc k (k + fs.keys.card)).image name ⊆ fs.keys := by
      intro x hx
      obtain ⟨j, hj, rfl⟩ := Finset.mem_image.mp hx
      obtain ⟨hk, hle⟩ := Finset.mem_Icc.mp hj
      rw [Finmap.mem_keys]
      rcases Nat.eq_or_lt_of_le hle with rfl | hlt
      · rwa [heq] at htaken
      · exact mem_of_lt_firstFree hk (heq ▸ hlt)
    have hcard := Finset.card_le_card hall
    rw [Finset.card_image_of_injective _ hname, Nat.card_Icc] at hcard
    omega

end Files
