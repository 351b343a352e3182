import Mathlib.Algebra.Ring.Int.Defs
import Mathlib.Algebra.Ring.Nat
import Mathlib.Data.List.Sort

/-! Loops that may fail, `foldlM` in `Except`, lists related element by element, and
sorting a list with its largest element at the end. -/

namespace Lib
open List
variable {α σ ε : Type}

variable {x : Except ε α} {β : Type} {f : σ → α → Except ε σ} {l : List α} {s t : σ} {b : β} {e : ε}

theorem bind_eq_ok {f : α → Except ε β} : (x >>= f) = .ok b ↔ ∃ a, x = .ok a ∧ f a = .ok b := by
  cases x <;> simp [bind, Except.bind]

theorem bind_eq_error {f : α → Except ε β} :
    x >>= f = .error e ↔ x = .error e ∨ ∃ a, x = .ok a ∧ f a = .error e := by
  cases x <;> simp [bind, Except.bind]

theorem map_eq_ok {f : α → β} : x.map f = .ok b ↔ ∃ a, x = .ok a ∧ f a = b := by
  cases x <;> simp [Except.map]

variable {ε' γ : Type} {a : α} {P : σ → Prop}

theorem mapError_eq_ok {f : ε → ε'} : x.mapError f = .ok a ↔ x = .ok a := by
  cases x <;> simp [Except.mapError]

theorem ite_error_eq_ok {c : Prop} [Decidable c] : (if c then .error e else x) = .ok a ↔ ¬c ∧ x = .ok a := by
  by_cases h : c <;> simp [h]

theorem map_bind {f : α → Except ε β} {g : β → γ} : (x >>= f).map g = x >>= fun a => (f a).map g := by
  cases x <;> rfl

theorem bind_map {f : α → β} {g : β → Except ε γ} : x.map f >>= g = x >>= fun a => g (f a) := by
  cases x <;> rfl

theorem foldlM_cons_eq_ok : (a :: l).foldlM f s = .ok t ↔ ∃ m, f s a = .ok m ∧ l.foldlM f m = .ok t := by
  rw [foldlM_cons, bind_eq_ok]

theorem foldlM_append_eq_ok {l' : List α} :
    (l ++ l').foldlM f s = .ok t ↔ ∃ m, l.foldlM f s = .ok m ∧ l'.foldlM f m = .ok t := by
  rw [foldlM_append, bind_eq_ok]

theorem foldlM_eq_error (h : l.foldlM f s = .error e) :
    ∃ l₁ a l₂ t, l = l₁ ++ a :: l₂ ∧ l₁.foldlM f s = .ok t ∧ f t a = .error e := by
  induction l generalizing s with
  | nil => cases h
  | cons a l ih =>
    rw [foldlM_cons, bind_eq_error] at h
    rcases h with h | ⟨m, hm, h⟩
    · exact ⟨[], a, l, s, rfl, rfl, h⟩
    · obtain ⟨l₁, b, l₂, t, rfl, ht, hb⟩ := ih h
      exact ⟨a :: l₁, b, l₂, t, rfl, foldlM_cons_eq_ok.mpr ⟨m, hm, ht⟩, hb⟩

theorem foldlM_isPrefix {f : σ → α → Except ε σ} {S : List α → σ} {ok : List α → α → Prop}
    (hok : ∀ p a, ok p a → f (S p) a = .ok (S (p ++ [a])))
    (hfail : ∀ p a, ¬ ok p a → ∃ e, f (S p) a = .error e) {l p : List α} {t : σ} :
    l.foldlM f (S p) = .ok t ↔ (∀ l₁ a l₂, l = l₁ ++ a :: l₂ → ok (p ++ l₁) a) ∧ t = S (p ++ l) := by
  induction l generalizing p with
  | nil =>
    rw [append_nil]
    refine ⟨fun h => ⟨fun l₁ a l₂ hl => ?_, ?_⟩, ?_⟩
    · simp at hl
    · cases h
      rfl
    · rintro ⟨-, rfl⟩
      rfl
  | cons a l ih =>
    rw [foldlM_cons_eq_ok]
    constructor
    · rintro ⟨m, hm, h⟩
      by_cases ha : ok p a
      · cases (hok p a ha).symm.trans hm
        obtain ⟨hall, rfl⟩ := ih.mp h
        rw [append_assoc]
        refine ⟨?_, rfl⟩
        rintro (_ | ⟨b, l₁⟩) c l₂ hl
        · cases hl
          rwa [append_nil]
        · cases hl
          rw [← singleton_append, ← append_assoc]
          exact hall l₁ c l₂ rfl
      · obtain ⟨e, he⟩ := hfail p a ha
        cases he.symm.trans hm
    · rintro ⟨hall, rfl⟩
      have ha := hall [] a l rfl
      rw [append_nil] at ha
      refine ⟨_, hok p a ha, ih.mpr ⟨?_, ?_⟩⟩
      · rintro l₁ b l₂ rfl
        rw [append_assoc]
        exact hall (a :: l₁) b l₂ rfl
      · rw [append_assoc, singleton_append]

theorem foldlM_ok_invariant (h : l.foldlM f s = .ok t) (hs : P s)
    (step : ∀ s a s', a ∈ l → P s → f s a = .ok s' → P s') : P t := by
  induction l generalizing s with
  | nil =>
    cases h
    exact hs
  | cons a l ih =>
    obtain ⟨m, hm, h⟩ := foldlM_cons_eq_ok.mp h
    exact ih h (step s a m (mem_cons_self ..) hs hm) fun s b s' hb => step s b s' (mem_cons_of_mem _ hb)

theorem forM_eq_ok {f : α → Except ε PUnit} : l.forM f = .ok () ↔ ∀ a ∈ l, f a = .ok () := by
  induction l with
  | nil => simp [pure, Except.pure]
  | cons a l ih =>
    rw [forall_mem_cons, ← ih]
    exact bind_eq_ok.trans ⟨fun ⟨_, h⟩ => h, fun h => ⟨(), h⟩⟩

theorem foldlM_ok_mem (h : l.foldlM f s = .ok t) (hs : P s)
    (step : ∀ s a s', P s → f s a = .ok s' → P s') (ha : a ∈ l) : ∃ m m', P m ∧ f m a = .ok m' := by
  obtain ⟨l₁, l₂, rfl⟩ := append_of_mem ha
  obtain ⟨m, hm, h⟩ := foldlM_append_eq_ok.mp h
  obtain ⟨m', hm', -⟩ := foldlM_cons_eq_ok.mp h
  exact ⟨m, m', foldlM_ok_invariant hm hs fun s a s' _ => step s a s', hm'⟩

theorem foldlM_ok_simulation {σ' : Type} {g : σ' → α → Except ε' σ'} {R : σ → σ' → Prop} {s' : σ'}
    (h : l.foldlM f s = .ok t) (hs : R s s')
    (step : ∀ s s' a t, R s s' → f s a = .ok t → ∃ t', g s' a = .ok t' ∧ R t t') :
    ∃ t', l.foldlM g s' = .ok t' ∧ R t t' := by
  induction l generalizing s s' with
  | nil =>
    cases h
    exact ⟨s', rfl, hs⟩
  | cons a l ih =>
    obtain ⟨m, hm, h⟩ := foldlM_cons_eq_ok.mp h
    obtain ⟨m', hm', hR⟩ := step s s' a m hs hm
    obtain ⟨t', ht', hR'⟩ := ih h hR
    exact ⟨t', foldlM_cons_eq_ok.mpr ⟨m', hm', ht'⟩, hR'⟩

variable {R : α → β → Prop} {m : List β} {S : β → γ → Prop} {n : List γ}

theorem forall₂_mem_right (h : Forall₂ R l m) (hb : b ∈ m) : ∃ a ∈ l, R a b := by
  induction h with
  | nil => simp at hb
  | cons hr _ ih =>
    rcases mem_cons.mp hb with rfl | hb
    · exact ⟨_, mem_cons_self .., hr⟩
    · exact (ih hb).imp fun _ ha => ⟨mem_cons_of_mem _ ha.1, ha.2⟩

theorem forall₂_append_left {l₁ l₂ : List α} (h : Forall₂ R (l₁ ++ l₂) m) :
    ∃ m₁ m₂, m = m₁ ++ m₂ ∧ Forall₂ R l₁ m₁ ∧ Forall₂ R l₂ m₂ := by
  induction l₁ generalizing m with
  | nil => exact ⟨[], m, rfl, .nil, h⟩
  | cons a l₁ ih =>
    obtain ⟨b, m, hr, hm, rfl⟩ := forall₂_cons_left_iff.mp h
    obtain ⟨m₁, m₂, rfl, h₁, h₂⟩ := ih hm
    exact ⟨b :: m₁, m₂, rfl, .cons hr h₁, h₂⟩

section
variable {r : α → α → Prop} [DecidableRel r]

theorem orderedInsert_concat {b a : α} (h : r b a) (l : List α) :
    List.orderedInsert r b (l ++ [a]) = List.orderedInsert r b l ++ [a] := by
  induction l with
  | nil => simp [h]
  | cons c l ih =>
    rw [cons_append, orderedInsert_cons, orderedInsert_cons, ih]
    split_ifs <;> rfl

theorem insertionSort_concat {l : List α} (h : ∀ b ∈ l, r b a) :
    List.insertionSort r (l ++ [a]) = List.insertionSort r l ++ [a] := by
  induction l with
  | nil => rfl
  | cons b l ih =>
    rw [forall_mem_cons] at h
    rw [cons_append, insertionSort_cons, insertionSort_cons, ih h.2, orderedInsert_concat h.1]

end

end Lib
