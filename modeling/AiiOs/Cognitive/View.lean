import AiiOs.Lib.Guarded

/-! The view a consolidation pass writes into the working truth, beside retirements by others.
Each read of the store or of the generation counter, each mint and each locked region is one
step; a retirement is a step in the store, then the counter's, then the locked render. -/

namespace AiiOs.Cognitive.View

/-- Where the pass stands, with the counts it has loaded. -/
inductive Point
  | start
  | loaded (gen : Nat)
  | reading (gen : Nat) -- the beliefs are read, the model is asked
  | minting (stale : Bool)
  | ready (stale : Bool) (gen : Nat)
  | done

/-- `retired` and `added` count the retirements by others that wait for their counter's step and
for their render, those made while the pass held what it had read apart from the others. -/
structure State where
  point : Point
  retiredGen : Nat
  viewStands : Bool -- the section holds this pass's view
  retired : Bool → Nat
  added : Bool → Nat
  late : Bool -- another retired a belief between the reading and the write

inductive Event
  | load
  | read (renderOnly : Bool)
  | judge
  | mint (retirements : Nat)
  | loadAfter
  | write
  | leave
  | retire
  | add (meanwhile : Bool)
  | render (meanwhile : Bool)

def Point.holds : Point → Bool
  | .reading _ | .minting _ | .ready _ _ => true
  | _ => false

def Point.gen? : Point → Option Nat
  | .loaded gen | .reading gen | .ready _ gen => some gen
  | _ => none

def bump (f : Bool → Nat) (b : Bool) : Bool → Nat := fun x => if x = b then f x + 1 else f x

def drop (f : Bool → Nat) (b : Bool) : Bool → Nat := fun x => if x = b then f x - 1 else f x

namespace State

def new : State := ⟨.start, 0, false, fun _ => 0, fun _ => 0, false⟩

def step (s : State) : Event → Option State
  | .load =>
    match s.point with
    | .start => some { s with point := .loaded s.retiredGen }
    | _ => none
  | .read renderOnly =>
    match s.point with
    | .loaded gen => some { s with point := if renderOnly then .ready false gen else .reading gen }
    | _ => none
  | .judge =>
    match s.point with
    | .reading gen => some { s with point := .minting (s.retiredGen ≠ gen) }
    | _ => none
  | .mint n => -- the pass's own retirements move the same counter
    match s.point with
    | .minting _ => some { s with retiredGen := s.retiredGen + n }
    | _ => none
  | .loadAfter =>
    match s.point with
    | .minting stale => some { s with point := .ready stale s.retiredGen }
    | _ => none
  | .write =>
    match s.point with
    | .ready stale gen => some { s with point := .done, viewStands := !stale && s.retiredGen = gen }
    | _ => none
  | .leave =>
    match s.point with
    | .done => none
    | _ => some { s with point := .done, viewStands := false }
  | .retire =>
    some { s with retired := bump s.retired s.point.holds, late := s.late || s.point.holds }
  | .add b =>
    if s.retired b = 0 then none
    else some { s with
      retiredGen := s.retiredGen + 1, retired := drop s.retired b, added := bump s.added b }
  | .render b =>
    if s.added b = 0 then none else some { s with added := drop s.added b, viewStands := false }

def after (s : State) (events : List Event) : Option State := events.foldlM step s

/-- No retirement by another waits for its counter's step or for its render. -/
def Settled (s : State) : Prop := ∀ b, s.retired b = 0 ∧ s.added b = 0

/-- Not a retirement made meanwhile that moves the counter while the pass mints. -/
def apart (s : State) : Event → Bool
  | .add true =>
    match s.point with
    | .minting _ => false
    | _ => true
  | _ => true

end State

/-- A late retirement has still to move the counter, has moved it since the count the pass will
compare, was seen by the pass, or has its render to come. -/
structure Seen (s : State) : Prop where
  gen : ∀ gen, s.point.gen? = some gen → gen ≤ s.retiredGen
  late : s.late → match s.point with
    | .start | .loaded _ => False
    | .reading gen => 0 < s.retired true ∨ gen < s.retiredGen
    | .minting stale => 0 < s.retired true ∨ stale
    | .ready stale gen => 0 < s.retired true ∨ stale ∨ gen < s.retiredGen
    | .done => 0 < s.retired true ∨ (s.viewStands → 0 < s.added true)

variable {s s' : State} {e : Event}

theorem Seen.step (h : Seen s) (hstep : s.step e = some s') (hapart : s.apart e) : Seen s' := by
  obtain ⟨point, gen', view, retired, added, late⟩ := s
  obtain ⟨hgen, hlate⟩ := h
  cases e with
  | load | read | judge | mint | loadAfter | write | leave =>
    simp only [State.step] at hstep
    split at hstep <;> cases hstep
    all_goals constructor <;> grind [Point.gen?]
  | retire =>
    -- made meanwhile, it has its own step of the counter to come
    cases hstep
    constructor <;> cases point <;> grind [bump, Point.holds]
  | add b =>
    simp only [State.step] at hstep
    split at hstep <;> cases hstep
    constructor <;> cases point <;> grind [State.apart, bump, drop, Point.gen?]
  | render b =>
    simp only [State.step] at hstep
    split at hstep <;> cases hstep
    constructor <;> cases point <;> grind

/-- Where no retirement made meanwhile moves the counter while the pass mints, a view that stands
once every retirement is rendered was written with no other retirement since the reading. -/
theorem not_late_of_viewStands (events : List Event) (s : State) (hafter : State.new.after events = some s)
    (hapart : Lib.guarded State.step (fun s e _ => s.apart e) .new events) (hsettled : s.Settled)
    (hdone : s.point = .done) (hview : s.viewStands) : s.late = false := by
  have hnew : Seen .new := ⟨by simp [State.new, Point.gen?], by simp [State.new]⟩
  have h := Lib.guarded_invariant (fun _ _ _ h hstep hguard => Seen.step h hstep hguard) hnew hapart hafter
  by_contra hlate
  have hrender := h.late (by simpa using hlate)
  rw [hdone] at hrender
  simp [hsettled true, hview] at hrender

/-- Another's belief goes before the reading, and its counter moves while the pass mints two of its own. -/
theorem not_late_of_viewStands_minted : ∃ s, State.new.after [.retire, .load, .read false, .judge,
      .mint 1, .add false, .render false, .mint 1, .loadAfter, .write] = some s ∧
    s.retiredGen = 3 ∧ s.viewStands ∧ s.late = false := by
  refine ⟨_, rfl, rfl, rfl, not_late_of_viewStands [.retire, .load, .read false, .judge, .mint 1,
    .add false, .render false, .mint 1, .loadAfter, .write] _ rfl rfl (fun b => ?_) rfl rfl⟩
  cases b <;> decide

/-- A retirement wholly between the two loads of the counter counts as one of the pass's own. -/
theorem viewStands_late : ∃ s, State.new.after [.load, .read false, .judge, .retire, .add true,
      .render true, .mint 0, .loadAfter, .write] = some s ∧
    s.Settled ∧ s.point = .done ∧ s.viewStands ∧ s.late := by
  refine ⟨_, rfl, fun b => ?_, rfl, rfl, rfl⟩
  cases b <;> decide

end AiiOs.Cognitive.View
