import Mathlib.Data.List.Basic

/-! Runs of a step that is not always possible, with a guard that every step taken passes. -/

namespace Lib
variable {σ α : Type} (step : σ → α → Option σ) (guard : σ → α → σ → Bool)

def guarded (s : σ) : List α → Bool
  | [] => true
  | a :: l =>
    match step s a with
    | none => true
    | some s' => guard s a s' && guarded s' l

variable {step guard} {s t : σ} {l : List α}

theorem guarded_of_forall (h : ∀ a ∈ l, ∀ s s', guard s a s') : guarded step guard s l := by
  induction l generalizing s with
  | nil => rfl
  | cons a l ih =>
    rw [List.forall_mem_cons] at h
    unfold guarded
    split
    · rfl
    · rw [h.1, ih h.2]
      rfl

/-- What every step that passes the guard keeps, a guarded run keeps. -/
theorem guarded_invariant {P : σ → Prop}
    (hstep : ∀ s a s', P s → step s a = some s' → guard s a s' → P s') (hs : P s)
    (hguard : guarded step guard s l) (hrun : l.foldlM step s = some t) : P t := by
  induction l generalizing s with
  | nil =>
    cases hrun
    exact hs
  | cons a l ih =>
    obtain ⟨m, hm, hrest⟩ := Option.bind_eq_some_iff.mp hrun
    simp only [guarded, hm, Bool.and_eq_true] at hguard
    exact ih (hstep s a m hs hm hguard.1) hguard.2 hrest

end Lib
