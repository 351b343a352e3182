import Mathlib.Order.Nat

/-! internal/identity, timer.go, with internal/app, timer_wake.go: the firings under SAFE wait in
two lists, one to be announced and one to be handed to a wake turn, which `drainSafeWakes` empties.
Each lock region is one step; the owner is not stopped and nothing panics. -/

namespace AiiOs.Cognitive.SafeWakes
open List

variable {α ν : Type}

structure SafeFiring (α ν : Type) where
  alarmID : α
  notice : ν -- the tag, the message, the deadline and the time
  coalesced : Nat

/-- Where a drainer stands. -/
inductive Phase
  | fresh
  | idle
  | acquire
  | take
  | lastFresh
  | abandon

/-- What `acquireTurnOr` answers. -/
inductive Acquired
  | got
  | arrived
  | failed

/-- The lists, the drainers that run, what was done with the firings, all of them, and those since the last
pass end. `lost` is what `Abandon` finds in `fresh`. -/
structure State (α ν : Type) where
  pending : List (SafeFiring α ν) := []
  fresh : List (SafeFiring α ν) := []
  draining : Bool := false
  drainers : List Phase := []
  announced : List (SafeFiring α ν) := []
  handed : List (SafeFiring α ν) := []
  abandoned : List (SafeFiring α ν) := []
  lost : List (SafeFiring α ν) := []
  fired : List α := []
  since : List α := []

inductive Act (α ν : Type)
  | add (alarmID : α) (notice : ν)
  | passEnd
  | drain (i : Nat) (answer : Acquired)

variable [DecidableEq α]

def upsert (f : SafeFiring α ν) : List (SafeFiring α ν) → List (SafeFiring α ν)
  | [] => [f]
  | g :: l => if g.alarmID = f.alarmID then { f
      with coalesced := f.coalesced + (g.coalesced + 1) } :: l else g :: upsert f l

/-- The step of a drainer. -/
def State.drain (s : State α ν) (i : Nat) (answer : Acquired) : Phase → State α ν
  | .fresh => { s with fresh := [], announced := s.announced ++ s.fresh, drainers := s.drainers.set i .idle }
  | .idle =>
    if s.pending = [] ∧ s.fresh = [] then { s with draining := false, drainers := s.drainers.eraseIdx i }
    else { s with drainers := s.drainers.set i .acquire }
  | .acquire => { s with drainers := s.drainers.set i (match answer with
    | .got => .take
    | .arrived => .fresh
    | .failed => .lastFresh) }
  | .take => { s with pending := [], handed := s.handed ++ s.pending, drainers := s.drainers.set i .fresh }
  | .lastFresh =>
    { s with fresh := [], announced := s.announced ++ s.fresh, drainers := s.drainers.set i .abandon }
  | .abandon => { s with
    pending := []
    fresh := []
    draining := false
    abandoned := s.abandoned ++ s.pending
    lost := s.lost ++ s.fresh
    drainers := s.drainers.eraseIdx i }

def State.step (s : State α ν) : Act α ν → State α ν
  | .add a notice => { s with
    pending := upsert ⟨a, notice, 0⟩ s.pending
    fresh := upsert ⟨a, notice, 0⟩ s.fresh
    fired := a :: s.fired
    since := a :: s.since }
  | .passEnd =>
    if s.draining ∨ s.pending = [] ∧ s.fresh = [] then { s with since := [] }
    else { s with since := [], draining := true, drainers := .fresh :: s.drainers }
  | .drain i answer => (s.drainers[i]?).elim s (s.drain i answer)

def State.run (s : State α ν) (acts : List (Act α ν)) : State α ν := acts.foldl step s

/-- The firings of an alarm that the entries stand for. -/
@[simp] def firings (a : α) : List (SafeFiring α ν) → Nat
  | [] => 0
  | f :: l => (if f.alarmID = a then f.coalesced + 1 else 0) + firings a l

variable {a : α} {s : State α ν} {l : List (SafeFiring α ν)}

@[simp] theorem firings_append (l' : List (SafeFiring α ν)) :
    firings a (l ++ l') = firings a l + firings a l' := by
  induction l with
  | nil => simp
  | cons f l ih => simp [ih, Nat.add_assoc]

theorem firings_upsert (b : α) (notice : ν) :
    firings a (upsert ⟨b, notice, 0⟩ l) = firings a l + if b = a then 1 else 0 := by
  induction l with
  | nil => simp [upsert, firings]
  | cons g l ih =>
    rw [upsert]
    split <;> grind [firings]

structure Fine (s : State α ν) : Prop where
  one : s.drainers.length = if s.draining then 1 else 0
  handed : ∀ a, firings a s.pending + firings a s.handed + firings a s.abandoned = s.fired.count a
  announced : ∀ a, firings a s.fresh + firings a s.announced + firings a s.lost = s.fired.count a
  late : s.draining = false → ∀ a, firings a s.pending ≤ s.since.count a ∧ firings a s.fresh ≤ s.since.count a

theorem Fine.drain (h : Fine s) {i : Nat} {phase : Phase} (hi : s.drainers[i]? = some phase)
    (answer : Acquired) :
    Fine (s.drain i answer phase) := by
  obtain ⟨hone, hhanded, hannounced, -⟩ := h
  have hlt := (List.getElem?_eq_some_iff.mp hi).1
  have hdrain : s.draining = true := by grind
  -- the one drainer goes on, or it ends with both lists empty
  have hset (p : Phase) : (s.drainers.set i p).length = if s.draining then 1 else 0 := by
    rw [length_set, hone]
  have herase : (s.drainers.eraseIdx i).length = 0 := by rw [length_eraseIdx, if_pos hlt, hone, hdrain]; rfl
  have hgoes {P : Prop} : s.draining = false → P := by simp [hdrain]
  have hsaid (a : α) : 0 + firings a (s.announced ++ s.fresh) + firings a s.lost = s.fired.count a := by
    rw [← hannounced, firings_append]
    omega
  cases phase with
  | fresh => exact ⟨hset _, hhanded, hsaid, hgoes⟩
  | idle =>
    unfold State.drain
    split_ifs with hempty
    · exact ⟨herase, hhanded, hannounced, fun _ a => by simp [hempty]⟩
    · exact ⟨hset _, hhanded, hannounced, hgoes⟩
  | acquire => exact ⟨hset _, hhanded, hannounced, hgoes⟩
  | take =>
    refine ⟨hset _, fun a => ?_, hannounced, hgoes⟩
    simp only [State.drain, ← hhanded, firings_append, firings]
    omega
  | lastFresh => exact ⟨hset _, hhanded, hsaid, hgoes⟩
  | abandon =>
    refine ⟨herase, fun a => ?_, fun a => ?_, fun _ a => ⟨Nat.zero_le _, Nat.zero_le _⟩⟩
    · simp only [State.drain, ← hhanded, firings_append, firings]
      omega
    · simp only [State.drain, ← hannounced, firings_append, firings]
      omega

theorem Fine.step (h : Fine s) (act : Act α ν) : Fine (s.step act) := by
  cases act with
  | add b notice =>
    refine ⟨h.one, fun a => ?_, fun a => ?_, fun hd a => ?_⟩
    · simp only [State.step, firings_upsert, count_cons, beq_iff_eq, ← h.handed]
      omega
    · simp only [State.step, firings_upsert, count_cons, beq_iff_eq, ← h.announced]
      omega
    · have hlate := h.late hd a
      simp only [State.step, firings_upsert, count_cons, beq_iff_eq]
      omega
  | passEnd =>
    unfold State.step
    split_ifs with hdone
    · refine ⟨h.one, h.handed, h.announced, fun hd a => ?_⟩
      have hempty := hdone.resolve_left (by simpa using hd)
      simp [hempty]
    · refine ⟨?_, h.handed, h.announced, by rintro ⟨⟩⟩
      have hone := h.one
      grind
  | drain i answer =>
    cases hi : s.drainers[i]? with
    | none => rwa [State.step, hi]
    | some phase =>
      rw [State.step, hi]
      exact h.drain hi answer

/-- One drainer at most runs, and one does while a firing from before the last pass end waits. Every
firing waits, is handed to a wake turn or is abandoned; each waits for its announcement or is
announced exactly as long as no `Abandon` has found one that was not. -/
def Accounted (s : State α ν) : Prop := s.drainers.length ≤ 1 ∧
  (∀ a, s.since.count a < firings a s.pending ∨ s.since.count a < firings a s.fresh → s.drainers ≠ []) ∧
  (∀ a, firings a s.pending + firings a s.handed + firings a s.abandoned = s.fired.count a) ∧
  ((∀ a, firings a s.fresh + firings a s.announced = s.fired.count a) ↔ s.lost = [])

theorem firings_accounted (acts : List (Act α ν)) : Accounted (State.run {} acts) := by
  have h : Fine (State.run {} acts) := by
    refine foldlRecOn (motive := Fine) acts State.step ?_ fun _ h act _ => h.step act
    exact ⟨rfl, fun _ => rfl, fun _ => rfl, fun _ _ => ⟨le_rfl, le_rfl⟩⟩
  have hone := h.one
  refine ⟨?_, fun a hwait hnone => ?_, h.handed, ⟨fun hall => ?_, fun hlost a => ?_⟩⟩
  · grind
  · have := h.late (by grind) a
    omega
  · cases hlost : (State.run {} acts).lost with
    | nil => rfl
    | cons f l =>
      have hf := h.announced f.alarmID
      rw [← hall, hlost] at hf
      simp [firings] at hf
  · rw [← h.announced, hlost]
    rfl

/-- The turn cannot be had for the firing of 1; between the drainer's last `Fresh` and its `Abandon`
2 fires. -/
def firesLate : List (Act Nat Unit) :=
  [.add 1 (), .passEnd, .drain 0 .got, .drain 0 .got, .drain 0 .failed, .drain 0 .got, .add 2 (),
    .drain 0 .got, .passEnd]

/-- 2 is counted as abandoned and never announced. -/
theorem firesLate_unannounced : (State.run {} firesLate).abandoned.map SafeFiring.alarmID = [1, 2] ∧
    (State.run {} firesLate).announced.map SafeFiring.alarmID = [1] ∧
    (State.run {} firesLate).fresh.length = 0 :=
  ⟨rfl, rfl, rfl⟩

end AiiOs.Cognitive.SafeWakes
