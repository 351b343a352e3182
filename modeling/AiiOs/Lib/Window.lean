import Mathlib.Algebra.Ring.Int.Defs
import Mathlib.Algebra.Ring.Nat
import Mathlib.Tactic.Common

/-! A line that is served from its head, a fixed number at a time, where some of those served
stay in the line: who is ever reached. -/

namespace Lib
open List
variable {α : Type} {stays : α → Bool} {n : ℕ} {pre post : List α} {a : α}

/-- The line after its first `n` were served: of those, the ones that stay keep their place. -/
def leave (stays : α → Bool) (n : ℕ) (line : List α) : List α :=
  (line.take n).filter stays ++ line.drop n

theorem leave_append (h : n ≤ pre.length) (rest : List α) :
    leave stays n (pre ++ rest) = leave stays n pre ++ rest := by
  simp only [leave, take_append_of_le_length h, drop_append_of_le_length h, append_assoc]

theorem filter_leave (line : List α) : (leave stays n line).filter stays = line.filter stays := by
  rw [leave, filter_append, List.filter_filter]
  simp only [Bool.and_self]
  rw [← filter_append, take_append_drop]

theorem mem_of_mem_leave (h : a ∈ leave stays n pre) : a ∈ pre := by
  rcases mem_append.mp h with h | h
  · exact mem_of_mem_take (mem_filter.mp h).1
  · exact mem_of_mem_drop h

theorem mem_of_mem_iterate_leave {k : ℕ} (h : a ∈ (leave stays n)^[k] pre) : a ∈ pre := by
  induction k generalizing pre with
  | zero => exact h
  | succ k ih => exact mem_of_mem_leave (ih h)

theorem length_leave_lt (h : n ≤ pre.length) (hfew : (pre.filter stays).length < n) :
    (leave stays n pre).length < pre.length := by
  have hle : ((pre.take n).filter stays).length ≤ (pre.filter stays).length :=
    ((take_sublist n pre).filter stays).length_le
  rw [leave, length_append, length_drop]
  omega

theorem notMem_take_of_blocked (hmany : n ≤ (pre.filter stays).length) (ha : a ∉ pre) (k : ℕ) :
    a ∉ ((leave stays n)^[k] (pre ++ a :: post)).take n := by
  have hlen : n ≤ pre.length := le_trans hmany (length_filter_le ..)
  induction k generalizing pre with
  | zero =>
    rw [Function.iterate_zero, id, take_append_of_le_length hlen]
    exact fun h => ha (mem_of_mem_take h)
  | succ k ih =>
    rw [Function.iterate_succ_apply, leave_append hlen]
    have hmany' : n ≤ ((leave stays n pre).filter stays).length := by rwa [filter_leave]
    exact ih hmany' (fun h => ha (mem_of_mem_leave h)) (le_trans hmany' (length_filter_le ..))

theorem mem_take_of_unblocked (hfew : (pre.filter stays).length < n) :
    ∃ k, a ∈ ((leave stays n)^[k] (pre ++ a :: post)).take n := by
  -- Each round that does not reach `a` shortens what stands before it.
  induction hm : pre.length using Nat.strong_induction_on generalizing pre with
  | _ m ih =>
    rcases lt_or_ge pre.length n with hlt | hge
    · refine ⟨0, ?_⟩
      rw [Function.iterate_zero, id, take_append, mem_append]
      refine .inr ?_
      obtain ⟨j, hj⟩ : ∃ j, n - pre.length = j + 1 := ⟨n - pre.length - 1, by omega⟩
      rw [hj]
      exact mem_cons_self ..
    · have hshort := length_leave_lt hge hfew
      obtain ⟨k, hk⟩ := ih _ (hm ▸ hshort) (by rwa [filter_leave]) rfl
      refine ⟨k + 1, ?_⟩
      rwa [Function.iterate_succ_apply, leave_append hge]

/-- One that does not stay is served in some round exactly where fewer than `n` of those before
it stay. -/
theorem exists_mem_take_iff (ha : a ∉ pre) :
    (∃ k, a ∈ ((leave stays n)^[k] (pre ++ a :: post)).take n) ↔ (pre.filter stays).length < n := by
  refine ⟨fun ⟨k, hk⟩ => ?_, mem_take_of_unblocked⟩
  by_contra hmany
  exact notMem_take_of_blocked (Nat.le_of_not_lt hmany) ha k hk

end Lib
