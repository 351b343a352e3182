import Mathlib.Algebra.Ring.Int.Defs
import Mathlib.Algebra.Ring.Nat
import Mathlib.Logic.Relation
import Mathlib.Tactic.Common

/-! Following a successor until there is none. A point that is given a new successor, one
that has none itself, leaves every way that ended with an end. -/

namespace Lib
variable {α : Type}

/-- The way from `a` along `next` stops at `b`. -/
inductive Ends (next : α → Option α) : α → α → Prop
  | stop {a : α} (h : next a = none) : Ends next a a
  | follow {a b c : α} (h : next a = some b) (hb : Ends next b c) : Ends next a c

namespace Ends
variable {next next' : α → Option α} {a b : α}

section
variable (h : Ends next a b)
include h

theorem eq_of_next_eq_none (hstop : next a = none) : a = b := by
  cases h with
  | stop _ => rfl
  | follow hnext _ =>
    rw [hstop] at hnext
    cases hnext

theorem next_eq_none : next b = none := by
  induction h with
  | stop h => exact h
  | follow _ _ ih => exact ih

theorem acyclic : ¬ Relation.TransGen (fun a b => next a = some b) a a := by
  induction h with
  | stop hstop =>
    intro hloop
    obtain ⟨c, hc, -⟩ := Relation.TransGen.head'_iff.mp hloop
    rw [hstop] at hc
    cases hc
  | @follow a c _ hnext _ ih =>
    intro hloop
    obtain ⟨d, hd, hback⟩ := Relation.TransGen.head'_iff.mp hloop
    obtain rfl : c = d := Option.some_inj.mp (hnext.symm.trans hd)
    exact ih (Relation.TransGen.tail' hback hnext)

theorem congr (hsame : ∀ c, next' c = next c) : Ends next' a b := by
  induction h with
  | stop h => exact .stop ((hsame _).trans h)
  | follow h _ ih => exact .follow ((hsame _).trans h) ih

/-- `old` is given the successor `new`, which has none from then on: a way ends at `new`
or, where it met neither, at the end it had. -/
theorem redirect {old new : α} (hold : next' old = some new) (hnew : next' new = none)
    (hother : ∀ c, c ≠ old → c ≠ new → next' c = next c) : Ends next' a new ∨ b ≠ old ∧ Ends next' a b := by
  induction h with
  | @stop a hstop =>
    by_cases hao : a = old
    · subst hao
      exact .inl (.follow hold (.stop hnew))
    · by_cases han : a = new
      · subst han
        exact .inl (.stop hnew)
      · exact .inr ⟨hao, .stop ((hother a hao han).trans hstop)⟩
  | @follow a c b hnext _ ih =>
    by_cases hao : a = old
    · subst hao
      exact .inl (.follow hold (.stop hnew))
    · by_cases han : a = new
      · subst han
        exact .inl (.stop hnew)
      · have hstep := (hother a hao han).trans hnext
        rcases ih with ih | ⟨hb, ih⟩
        · exact .inl (.follow hstep ih)
        · exact .inr ⟨hb, .follow hstep ih⟩

end

end Ends

end Lib
