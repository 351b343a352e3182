import Mathlib.Algebra.Ring.Int.Defs
import Mathlib.Algebra.Ring.Nat
import Mathlib.Logic.Relation
import Mathlib.Tactic.Common

/-! Programs over a state that may be stopped after any of their steps, and the rules
of pre- and postconditions for them. The condition `C` of a rule holds after every
step, so it is what a program that was stopped leaves behind. -/

namespace Lib
open List

/-- A program over states `σ`: it looks at the state, changes it in one step, asks its
surroundings for an answer, fails, or is done. -/
inductive Prog (σ ι ε α : Type) : Type
  | done (a : α)
  | fail (e : ε)
  | step (f : σ → σ) (next : Prog σ ι ε α)
  | look (next : σ → Prog σ ι ε α)
  | ask (next : ι → Prog σ ι ε α)

namespace Prog
variable {σ ι ε ε' α β : Type}

def bind : Prog σ ι ε α → (α → Prog σ ι ε β) → Prog σ ι ε β
  | done a, k => k a
  | fail e, _ => fail e
  | step f p, k => step f (p.bind k)
  | look p, k => look fun s => (p s).bind k
  | ask p, k => ask fun i => (p i).bind k

instance : Monad (Prog σ ι ε) where
  pure := done
  bind := bind

def act (f : σ → σ) : Prog σ ι ε Unit := step f (done ())

def read (f : σ → α) : Prog σ ι ε α := look fun s => done (f s)

def attempt : Prog σ ι ε α → Prog σ ι ε' (Except ε α)
  | done a => done (.ok a)
  | fail e => done (.error e)
  | step f p => step f p.attempt
  | look p => look fun s => (p s).attempt
  | ask p => ask fun i => (p i).attempt

/-! ### Runs -/

/-- A state the program is in after one of its steps. -/
inductive Visits : Prog σ ι ε α → σ → σ → Prop
  | here {f p s} : Visits (step f p) s (f s)
  | step {f p s t} : Visits p (f s) t → Visits (step f p) s t
  | look {p s t} : Visits (p s) s t → Visits (look p) s t
  | ask {p s t} (i) : Visits (p i) s t → Visits (ask p) s t

inductive Ends : Prog σ ι ε α → σ → Except ε α → σ → Prop
  | done {a s} : Ends (done a) s (.ok a) s
  | fail {e s} : Ends (fail e) s (.error e) s
  | step {f p s r t} : Ends p (f s) r t → Ends (step f p) s r t
  | look {p s r t} : Ends (p s) s r t → Ends (look p) s r t
  | ask {p s r t} (i) : Ends (p i) s r t → Ends (ask p) s r t

/-- The run with these answers: the states after its steps, and its end unless the
answers run out. -/
def exec : Prog σ ι ε α → List ι → σ → List σ × Option (Except ε α × σ)
  | done a, _, s => ([], some (.ok a, s))
  | fail e, _, s => ([], some (.error e, s))
  | step f p, is, s => (f s :: (p.exec is (f s)).1, (p.exec is (f s)).2)
  | look p, is, s => (p s).exec is s
  | ask _, [], _ => ([], none)
  | ask p, i :: is, s => (p i).exec is s

variable {p : Prog σ ι ε α} {r : Except ε α} {is : List ι}

theorem ends_of_exec {s t : σ} (h : (p.exec is s).2 = some (r, t)) : Ends p s r t := by
  induction p generalizing is s with
  | done a =>
    cases h
    exact .done
  | fail e =>
    cases h
    exact .fail
  | step f p ih => exact .step (ih h)
  | look p ih => exact .look (ih s h)
  | ask p ih =>
    cases is with
    | nil => cases h
    | cons i is => exact .ask i (ih i h)

theorem exists_ends_of_exec {s : σ} {b : Except ε α × σ → Bool}
    (h : (p.exec is s).2.any b) : ∃ r t, Ends p s r t ∧ b (r, t) := by
  obtain ⟨⟨r, t⟩, hr, h⟩ := (Option.any_eq_true _ _).mp h
  exact ⟨r, t, ends_of_exec hr, h⟩

theorem visits_of_exec {s t : σ} (h : t ∈ (p.exec is s).1) : Visits p s t := by
  induction p generalizing is s with
  | done a => cases h
  | fail e => cases h
  | step f p ih =>
    rcases mem_cons.mp h with rfl | h
    · exact .here
    · exact .step (ih h)
  | look p ih => exact .look (ih s h)
  | ask p ih =>
    cases is with
    | nil => cases h
    | cons i is => exact .ask i (ih i h)

/-! ### Preconditions -/

/-- The states from which every step of the program leaves `C`, and its end `Q` or `E`. -/
def wp (C : σ → Prop) (Q : α → σ → Prop) (E : ε → σ → Prop) : Prog σ ι ε α → σ → Prop
  | done a, s => Q a s
  | fail e, s => E e s
  | step f p, s => C (f s) ∧ p.wp C Q E (f s)
  | look p, s => (p s).wp C Q E s
  | ask p, s => ∀ i, (p i).wp C Q E s

variable {C C' : σ → Prop} {Q Q' : α → σ → Prop} {E E' : ε → σ → Prop} {s t : σ} {f : σ → σ}

section
variable (h : p.wp C Q E s)
include h

theorem wp_visits (ht : Visits p s t) : C t := by
  induction ht with
  | here => exact h.1
  | step _ ih => exact ih h.2
  | look _ ih => exact ih h
  | ask i _ ih => exact ih (h i)

theorem wp_ends (ht : Ends p s r t) : (∀ a, r = .ok a → Q a t) ∧ ∀ e, r = .error e → E e t := by
  induction ht with
  | done =>
    refine ⟨?_, nofun⟩
    rintro _ ⟨⟩
    exact h
  | fail =>
    refine ⟨nofun, ?_⟩
    rintro _ ⟨⟩
    exact h
  | step _ ih => exact ih h.2
  | look _ ih => exact ih h
  | ask i _ ih => exact ih (h i)

theorem wp_mono (hC : ∀ t, C t → C' t) (hQ : ∀ a t, Q a t → Q' a t) (hE : ∀ e t, E e t → E' e t) :
    p.wp C' Q' E' s := by
  induction p generalizing s with
  | done a => exact hQ a s h
  | fail e => exact hE e s h
  | step f p ih => exact ⟨hC _ h.1, ih h.2⟩
  | look p ih => exact ih s h
  | ask p ih => exact fun i => ih i (h i)

theorem wp_post (hQ : ∀ a t, Q a t → Q' a t) : p.wp C Q' E s := wp_mono h (fun _ h => h) hQ fun _ _ h => h

theorem wp_and (h' : p.wp C' Q' E' s) :
    p.wp (fun t => C t ∧ C' t) (fun a t => Q a t ∧ Q' a t) (fun e t => E e t ∧ E' e t) s := by
  induction p generalizing s with
  | done a => exact ⟨h, h'⟩
  | fail e => exact ⟨h, h'⟩
  | step f p ih => exact ⟨⟨h.1, h'.1⟩, ih h.2 h'.2⟩
  | look p ih => exact ih s h h'
  | ask p ih => exact fun i => ih i (h i) (h' i)

end

@[simp] theorem wp_act {Q : Unit → σ → Prop} :
    (act f : Prog σ ι ε Unit).wp C Q E s ↔ C (f s) ∧ Q () (f s) := .rfl

@[simp] theorem wp_read {f : σ → α} : (read f : Prog σ ι ε α).wp C Q E s ↔ Q (f s) s := .rfl

@[simp] theorem wp_bind {k : α → Prog σ ι ε β} {Q : β → σ → Prop} :
    (p >>= k).wp C Q E s ↔ p.wp C (fun a t => (k a).wp C Q E t) E s := by
  induction p generalizing s with
  | done a => rfl
  | fail e => rfl
  | step f p ih => exact and_congr_right fun _ => ih
  | look p ih => exact ih s
  | ask p ih => exact forall_congr' (ih ·)

@[simp] theorem wp_attempt {Q : Except ε α → σ → Prop} {E : ε' → σ → Prop} :
    (p.attempt : Prog σ ι ε' (Except ε α)).wp C Q E s ↔ p.wp C (fun a => Q (.ok a))
      (fun e => Q (.error e)) s := by
  induction p generalizing s with
  | done a => rfl
  | fail e => rfl
  | step f p ih => exact and_congr_right fun _ => ih
  | look p ih => exact ih s
  | ask p ih => exact forall_congr' (ih ·)

theorem wp_forM {γ : Type} {l : List γ} {f : γ → Prog σ ι ε Unit} {I : List γ → σ → Prop} (hs : I [] s)
    (hstep : ∀ l₁ a l₂ t, l = l₁ ++ a :: l₂ → I l₁ t → (f a).wp C (fun _ => I (l₁ ++ [a])) E t) :
    (forM l f).wp C (fun _ => I l) E s := by
  suffices h : ∀ l₁ l₂ t, l = l₁ ++ l₂ → I l₁ t → (forM l₂ f).wp C (fun _ => I l) E t from h [] l s rfl hs
  intro l₁ l₂
  induction l₂ generalizing l₁ with
  | nil =>
    intro t hl ht
    rw [append_nil] at hl
    rw [hl]
    exact ht
  | cons a l₂ ih =>
    intro t hl ht
    rw [forM_cons, wp_bind]
    refine wp_mono (hstep l₁ a l₂ t hl ht) (fun _ h => h) ?_ fun _ _ h => h
    intro _ u hu
    exact ih (l₁ ++ [a]) u (by rw [hl, append_assoc, singleton_append]) hu

theorem wp_forM_append {γ : Type} {l₁ l₂ : List γ} {f : γ → Prog σ ι ε Unit} {Q : Unit → σ → Prop}
    (h : (forM l₁ f).wp C (fun _ t => (forM l₂ f).wp C Q E t) E s) : (forM (l₁ ++ l₂) f).wp C Q E s := by
  induction l₁ generalizing s with
  | nil => exact h
  | cons a l₁ ih =>
    rw [cons_append, forM_cons, wp_bind]
    rw [forM_cons, wp_bind] at h
    exact wp_mono h (fun _ h => h) (fun _ _ h => ih h) fun _ _ h => h

/-! ### What a program keeps -/

/-- Every state the program leaves has `P`, wherever it stops. -/
def Keeps (P : σ → Prop) (p : Prog σ ι ε α) (s : σ) : Prop := p.wp P (fun _ => P) (fun _ => P) s

section
variable {P : σ → Prop} {γ : Type} {k : α → Prog σ ι ε β}

theorem Keeps.ends (h : p.Keeps P s) (ht : Ends p s r t) : P t := by
  cases r with
  | ok a => exact (wp_ends h ht).1 a rfl
  | error e => exact (wp_ends h ht).2 e rfl

theorem Keeps.mono {P' : σ → Prop} (h : p.Keeps P s) (hP : ∀ t, P t → P' t) : p.Keeps P' s :=
  wp_mono h hP (fun _ => hP) fun _ => hP

theorem Keeps.bind (h : p.Keeps P s) (hk : ∀ a t, P t → (k a).Keeps P t) : (p >>= k).Keeps P s :=
  wp_bind.mpr (wp_mono h (fun _ h => h) hk fun _ _ h => h)

theorem keeps_act (h : P (f s)) : (act f : Prog σ ι ε Unit).Keeps P s := ⟨h, h⟩

theorem keeps_forM {l : List γ} {f : γ → Prog σ ι ε Unit} (hs : P s)
    (h : ∀ a ∈ l, ∀ t, P t → (f a).Keeps P t) : (forM l f).Keeps P s := by
  induction l generalizing s with
  | nil => exact hs
  | cons a l ih =>
    exact (h a mem_cons_self s hs).bind fun _ t ht => ih ht fun b hb => h b (mem_cons_of_mem _ hb)

end

theorem exists_ends [Inhabited ι] (p : Prog σ ι ε α) (s : σ) : ∃ r t, Ends p s r t := by
  induction p generalizing s with
  | done a => exact ⟨_, s, .done⟩
  | fail e => exact ⟨_, s, .fail⟩
  | step f p ih =>
    obtain ⟨r, t, h⟩ := ih (f s)
    exact ⟨r, t, .step h⟩
  | look p ih =>
    obtain ⟨r, t, h⟩ := ih s s
    exact ⟨r, t, .look h⟩
  | ask p ih =>
    obtain ⟨r, t, h⟩ := ih default s
    exact ⟨r, t, .ask default h⟩

end Prog

end Lib
