import Mathlib.Data.List.Induction
import Mathlib.Order.Bounds.Basic
import Mathlib.Order.MinMax

/-! Edits that turn one word into another, told from the words' ends. Every letter is
kept, deleted, inserted, replaced or swapped with its neighbour, and none of them twice. -/

namespace Lib
open List

variable {α : Type*}

/-- The first word becomes the second by so many edits. -/
inductive EditScript : List α → List α → Nat → Prop
  | nil : EditScript [] [] 0
  | keep {xs ys n} (h : EditScript xs ys n) (a : α) : EditScript (xs ++ [a]) (ys ++ [a]) n
  | delete {xs ys n} (h : EditScript xs ys n) (a : α) : EditScript (xs ++ [a]) ys (n + 1)
  | insert {xs ys n} (h : EditScript xs ys n) (b : α) : EditScript xs (ys ++ [b]) (n + 1)
  | replace {xs ys n} (h : EditScript xs ys n) (a b : α) : EditScript (xs ++ [a]) (ys ++ [b]) (n + 1)
  | swap {xs ys n} (h : EditScript xs ys n) (a b : α) : EditScript (xs ++ [a] ++ [b])
      (ys ++ [b] ++ [a]) (n + 1)

/-- The least number of edits. -/
def LeastEdits (xs ys : List α) (n : Nat) : Prop := IsLeast {m | EditScript xs ys m} n

variable {xs ys : List α} {a b : α} {m n : Nat}

namespace EditScript

/-- The lengths are no further apart than there are edits. -/
theorem length_le (h : EditScript xs ys n) : xs.length ≤ ys.length + n ∧ ys.length ≤ xs.length + n := by
  induction h with
  | nil => exact ⟨le_refl _, le_refl _⟩
  | keep | delete | insert | replace | swap =>
    simp only [length_append, length_singleton]
    omega

theorem fewer (h : EditScript xs ys m) (h' : EditScript xs ys n) : EditScript xs ys (min m n) := by
  rcases min_choice m n with heq | heq
  · rwa [heq]
  · rwa [heq]

theorem nil_left (ys : List α) : EditScript [] ys ys.length := by
  induction ys using List.reverseRecOn with
  | nil => exact .nil
  | append_singleton ys b ih =>
    rw [length_append]
    exact ih.insert b

theorem nil_right (xs : List α) : EditScript xs [] xs.length := by
  induction xs using List.reverseRecOn with
  | nil => exact .nil
  | append_singleton xs a ih =>
    rw [length_append]
    exact ih.delete a

end EditScript

theorem leastEdits_nil_left (ys : List α) : LeastEdits [] ys ys.length :=
  ⟨.nil_left ys, fun _ h => by simpa using h.length_le.2⟩

theorem leastEdits_nil_right (xs : List α) : LeastEdits xs [] xs.length :=
  ⟨.nil_right xs, fun _ h => by simpa using h.length_le.1⟩

/-- A number of edits is the least one if no last edit leads to fewer. -/
theorem leastEdits_concat (h : EditScript (xs ++ [a]) (ys ++ [b]) n)
    (hdelete : ∀ m, EditScript xs (ys ++ [b]) m → n ≤ m + 1)
    (hinsert : ∀ m, EditScript (xs ++ [a]) ys m → n ≤ m + 1)
    (hkeep : a = b → ∀ m, EditScript xs ys m → n ≤ m)
    (hreplace : a ≠ b → ∀ m, EditScript xs ys m → n ≤ m + 1)
    (hswap : ∀ us vs m, xs = us ++ [b] → ys = vs ++ [a] → EditScript us vs m → n ≤ m + 1) :
    LeastEdits (xs ++ [a]) (ys ++ [b]) n := by
  refine ⟨h, fun m hm => ?_⟩
  generalize hu : xs ++ [a] = u at hm
  generalize hv : ys ++ [b] = v at hm
  cases hm with
  | nil => simp at hu
  | keep hm c =>
    obtain ⟨rfl, rfl⟩ := append_singleton_inj.mp hu
    obtain ⟨rfl, rfl⟩ := append_singleton_inj.mp hv
    exact hkeep rfl _ hm
  | delete hm c =>
    obtain ⟨rfl, rfl⟩ := append_singleton_inj.mp hu
    subst hv
    exact hdelete _ hm
  | insert hm c =>
    obtain ⟨rfl, rfl⟩ := append_singleton_inj.mp hv
    subst hu
    exact hinsert _ hm
  | replace hm c d =>
    obtain ⟨rfl, rfl⟩ := append_singleton_inj.mp hu
    obtain ⟨rfl, rfl⟩ := append_singleton_inj.mp hv
    by_cases heq : a = b
    · exact (hkeep heq _ hm).trans (Nat.le_succ _)
    · exact hreplace heq _ hm
  | swap hm c d =>
    obtain ⟨rfl, rfl⟩ := append_singleton_inj.mp hu
    obtain ⟨rfl, rfl⟩ := append_singleton_inj.mp hv
    exact hswap _ _ _ rfl rfl hm

end Lib
