import Mathlib.Tactic.Common

/-! Lists of which one element is changed: which elements stand in the changed list, and a bound on
counts from where the counted elements stand. -/

namespace Lib
open List

variable {α : Type} {l : List α} {f : α → α} {p : α → Bool} {i : Nat}

theorem countP_le_one (h : ∀ (i j : Nat) a b, l[i]? = some a → l[j]? = some b → p a → p b → i = j) :
    l.countP p ≤ 1 := by
  induction l with
  | nil => exact Nat.zero_le _
  | cons c l ih =>
    rw [countP_cons]
    by_cases hc : p c
    · have hzero : l.countP p = 0 := by
        rw [countP_eq_zero]
        intro b hb hpb
        obtain ⟨j, hj⟩ := getElem?_of_mem hb
        have hzero : 0 = j + 1 := h 0 (j + 1) c b rfl hj hc hpb
        omega
      exact Nat.le_of_eq (by rw [hzero, if_pos hc])
    · rw [if_neg hc]
      exact ih fun i j a b hi hj ha hb => Nat.succ.inj (h (i + 1) (j + 1) a b hi hj ha hb)

theorem mem_modify {b : α} (h : b ∈ l.modify i f) :
    (∃ a, l[i]? = some a ∧ b = f a) ∨ ∃ j, j ≠ i ∧ l[j]? = some b := by
  obtain ⟨j, hj⟩ := getElem?_of_mem h
  by_cases hji : j = i
  · rw [hji, getElem?_modify_eq] at hj
    obtain ⟨a, ha, rfl⟩ := Option.map_eq_some_iff.mp hj
    exact .inl ⟨a, ha, rfl⟩
  · rw [getElem?_modify_ne _ _ (Ne.symm hji)] at hj
    exact .inr ⟨j, hji, hj⟩

end Lib
