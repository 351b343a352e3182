import Mathlib.Algebra.Ring.Int.Defs
import Mathlib.Algebra.Ring.Nat
import Mathlib.Data.List.Basic
import Mathlib.Logic.Relation

/-! Any number of processes over a shared state, which are started, take their steps in
any order and are all stopped at once, and the rule for what such a system keeps. Beside
it, writes that fail and logs of what happened. -/

namespace Lib
open List

/-! ### Writes that fail -/

inductive Ending
  | done
  | failed
  | lost
  deriving DecidableEq, Repr

section
variable {σ α ε : Type}

def Ending.of (ending : Ending) (failure : ε) (s : σ) : Except ε (α × σ) → Except ε α × σ
  | .error e => (.error e, s)
  | .ok (a, s') =>
    match ending with
    | .done => (.ok a, s')
    | .failed => (.error failure, s)
    | .lost => (.error failure, s')

theorem Ending.of_cases (ending : Ending) (failure : ε) (s : σ) (x : Except ε (α × σ)) :
    ((ending.of failure s x).2 = s ∧ ∃ e, (ending.of failure s x).1 = .error e) ∨
      ∃ a s', x = .ok (a, s') ∧ (ending.of failure s x).2 = s' ∧
        ((ending.of failure s x).1 = .ok a ∨ ∃ e, (ending.of failure s x).1 = .error e) := by
  cases x with
  | error e => exact .inl ⟨rfl, e, rfl⟩
  | ok r =>
    obtain ⟨a, s'⟩ := r
    cases ending with
    | done => exact .inr ⟨a, s', rfl, rfl, .inl rfl⟩
    | failed => exact .inl ⟨rfl, failure, rfl⟩
    | lost => exact .inr ⟨a, s', rfl, rfl, .inr ⟨failure, rfl⟩⟩

end

/-! ### Logs -/

section
variable {α : Type} {A : List α → α → Prop} {l : List α} {e : α}

/-- Every event of the log was allowed by those before it. -/
def Each (A : List α → α → Prop) (l : List α) :
    Prop := ∀ before e after, l = before ++ e :: after → A before e

theorem each_nil : Each A [] := fun _ _ _ h =>
  absurd h.symm (append_ne_nil_of_right_ne_nil _ (cons_ne_nil _ _))

theorem Each.concat (h : Each A l) (he : A l e) : Each A (l ++ [e]) := by
  intro before e' after heq
  rcases eq_nil_or_concat after with rfl | ⟨after, e'', rfl⟩
  · obtain ⟨rfl, hlast⟩ := append_inj' heq rfl
    cases hlast
    exact he
  · rw [concat_eq_append, ← cons_append, ← append_assoc] at heq
    exact h before e' after (append_inj' heq rfl).1

end

/-! ### Processes -/

structure Procs (σ π : Type) where
  shared : σ
  running : List π

namespace Procs
variable {σ π : Type}

/-- What can happen: a process is started, takes a step (and goes on or ends), something
else changes the state, or everything stops. -/
structure Rules (σ π : Type) where
  start : σ → σ → π → Prop
  act : σ → π → σ → Option π → Prop
  env : σ → σ → Prop
  stop : σ → σ → Prop

inductive Step (r : Rules σ π) : Procs σ π → Procs σ π → Prop
  | start {s s' p ps} (h : r.start s s' p) : Step r ⟨s, ps⟩ ⟨s', p :: ps⟩
  | act {s s' p o before after} (h : r.act s p s' o) :
    Step r ⟨s, before ++ p :: after⟩ ⟨s', before ++ (o.toList ++ after)⟩
  | env {s s' ps} (h : r.env s s') : Step r ⟨s, ps⟩ ⟨s', ps⟩
  | stop {s s' ps} (h : r.stop s s') : Step r ⟨s, ps⟩ ⟨s', []⟩

def Reaches (r : Rules σ π) : Procs σ π → Procs σ π → Prop := Relation.ReflTransGen (Step r)

/-- The state satisfies `S`, every process `L` in it, and any two processes `M`. -/
structure Holds (S : σ → Prop) (L : σ → π → Prop) (M : π → π → Prop) (x : Procs σ π) : Prop where
  shared : S x.shared
  each : ∀ p ∈ x.running, L x.shared p
  pairs : x.running.Pairwise M

/-- Each rule keeps them. A step of one process is checked against the assertion of any
other that it may run beside. -/
structure Keeps (r : Rules σ π) (S : σ → Prop) (L : σ → π → Prop) (M : π → π → Prop) : Prop where
  symm : ∀ p q, M p q → M q p
  start : ∀ s s' p, S s → r.start s s' p → S s' ∧ L s' p ∧ ∀ q, L s q → L s' q ∧ M p q
  act : ∀ s p s' o, S s → L s p → r.act s p s' o →
    S s' ∧ (∀ p' ∈ o, L s' p') ∧ ∀ q, L s q → M p q → L s' q ∧ ∀ p' ∈ o, M p' q
  env : ∀ s s', S s → r.env s s' → S s' ∧ ∀ q, L s q → L s' q
  stop : ∀ s s', S s → r.stop s s' → S s'

variable {r : Rules σ π} {S : σ → Prop} {L : σ → π → Prop} {M : π → π → Prop} {x y : Procs σ π}

theorem forall_running {P : π → Prop} {p : π} {o : Option π} {before after : List π}
    (h : ∀ q ∈ before ++ p :: after, P q) (ho : ∀ q ∈ o, P q) : ∀ q ∈ before ++ (o.toList ++ after), P q := by
  simp only [forall_mem_append, forall_mem_cons] at h ⊢
  exact ⟨h.1, fun q hq => ho q (Option.mem_toList.mp hq), h.2.2⟩

theorem Keeps.step (h : Keeps r S L M) (hx : Holds S L M x) (hstep : Step r x y) : Holds S L M y := by
  obtain ⟨hshared, heach, hpairs⟩ := hx
  cases hstep with
  | start hstart =>
    obtain ⟨hS, hL, hrest⟩ := h.start _ _ _ hshared hstart
    refine ⟨hS, forall_mem_cons.mpr ⟨hL, fun q hq => (hrest q (heach q hq)).1⟩, ?_⟩
    exact pairwise_cons.mpr ⟨fun q hq => (hrest q (heach q hq)).2, hpairs⟩
  | @act s s' p o before after hact =>
    -- the others, before and after it
    have hp : p ∈ before ++ p :: after := mem_append_right _ mem_cons_self
    have hmid := (pairwise_middle (h.symm _ _)).mp hpairs
    obtain ⟨hbeside, hothers⟩ := pairwise_cons.mp hmid
    obtain ⟨hS, hL, hrest⟩ := h.act _ _ _ _ hshared (heach p hp) hact
    have hold : ∀ q ∈ before ++ after, L s q := @forall_running _ _ _ none _ _ heach nofun
    have hnew : ∀ q ∈ before ++ after, L s' q ∧ ∀ p' ∈ o, M p' q :=
      fun q hq => hrest q (hold q hq) (hbeside q hq)
    cases o with
    | none => exact ⟨hS, fun q hq => (hnew q hq).1, hothers⟩
    | some p' =>
      refine ⟨hS, fun q hq => ?_, (pairwise_middle (h.symm _ _)).mpr (pairwise_cons.mpr ⟨?_, hothers⟩)⟩
      · rcases mem_append.mp hq with hq | hq
        · exact (hnew q (mem_append_left _ hq)).1
        · rcases mem_cons.mp hq with rfl | hq
          · exact hL q rfl
          · exact (hnew q (mem_append_right _ hq)).1
      · exact fun q hq => (hnew q hq).2 p' rfl
  | env henv =>
    obtain ⟨hS, hrest⟩ := h.env _ _ hshared henv
    exact ⟨hS, fun q hq => hrest q (heach q hq), hpairs⟩
  | stop hstop => exact ⟨h.stop _ _ hshared hstop, nofun, List.Pairwise.nil⟩

theorem Keeps.reaches (h : Keeps r S L M) (hx : Holds S L M x) (hy : Reaches r x y) : Holds S L M y := by
  induction hy with
  | refl => exact hx
  | tail _ hstep ih => exact h.step ih hstep

def drive (step : σ → π → σ × Option π) : Nat → σ → π → σ × Option π
  | 0, s, p => (s, some p)
  | n + 1, s, p =>
    match step s p with
    | (s', none) => (s', none)
    | (s', some p') => drive step n s' p'

theorem reaches_drive {step : σ → π → σ × Option π}
    (hstep : ∀ s p, r.act s p (step s p).1 (step s p).2) (n : Nat) (s : σ)
    (p : π) : Reaches r ⟨s, [p]⟩ ⟨(drive step n s p).1, (drive step n s p).2.toList⟩ := by
  induction n generalizing s p with
  | zero => exact .refl
  | succ n ih =>
    have hact : Step r ⟨s, [] ++ p :: []⟩ ⟨(step s p).1, [] ++ ((step s p).2.toList ++ [])⟩ :=
      .act (hstep s p)
    rw [drive]
    cases hnext : step s p with
    | mk s' o =>
      rw [hnext] at hact
      cases o with
      | none => exact .single hact
      | some p' => exact .head hact (ih s' p')

theorem holds_nil {s : σ} (h : S s) : Holds S L M ⟨s, []⟩ := ⟨h, nofun, List.Pairwise.nil⟩

end Procs

end Lib
