import AiiOs.Lib.Guarded

/-! The job that brings one plugin's material: `Acquirer.run`, with the calls that reach it
while the material stays the same. Each locked region, each call out of the goroutine and
each select is one step. -/

namespace AiiOs.PluginHost

def MaxDownloadAttempts : Nat := 5

/-- An error of `Materialize`, by what `errors.As` finds in its chain. -/
structure Cause where
  coming : Option Bool -- a MaterialWait, with its Fetching
  ended : Bool
  waitsOnPackage : Bool
  transient : Bool
  deriving DecidableEq

inductive LastErr
  | cause (err : Cause)
  | download (attempts : Nat) (cause : Cause)
  deriving DecidableEq

inductive Phase
  | fetching
  | waiting
  | ready
  deriving DecidableEq

/-- Where the job's goroutine stands. -/
inductive Point
  | top
  | asking
  | materializing
  | returned (err : Option Cause) (grew : Bool)
  | ending -- the end is recorded, `Ended` is still to be called
  | held
  | resting
  | gone
  deriving DecidableEq

/-- What a `Materialize` call was begun with. -/
structure Call where
  retry : Bool
  reported : Bool
  deriving DecidableEq

structure AcquireJob where
  phase : Phase
  attempt : Nat
  lastErr : Option LastErr
  wake : Bool
  retry : Bool
  reported : Bool
  idle : Nat
  point : Point
  calls : List Call
  deriving DecidableEq

def AcquireJob.new : AcquireJob := ⟨.fetching, 0, none, false, false, false, 0, .top, []⟩

def materialWaitsOnPackage : Option LastErr → Bool
  | none => false
  | some (.cause e) | some (.download _ e) => e.waitsOnPackage

/-- A DownloadError or a MaterialEnded. -/
def isFinal : Option LastErr → Bool
  | none => false
  | some (.cause e) => e.ended
  | some (.download ..) => true

def clearBound (e : Option LastErr) : Option LastErr := if materialWaitsOnPackage e then none else e

namespace AcquireJob

-- once the job is ready a want starts another job, and this one stays as it is
def wantLocked (j : AcquireJob) : AcquireJob := if j.phase = .ready then j
  else if isFinal (clearBound j.lastErr) then { j with lastErr := clearBound j.lastErr }
  else { j with lastErr := clearBound j.lastErr, wake := true }

def downloadCause : Option LastErr → Option LastErr
  | some (.download _ e) => some (.cause e)
  | e => e

/-- `Momentary`: a MaterialWait with the same text. -/
def momentary : LastErr := .cause ⟨some false, false, false, false⟩

def retryCall (j : AcquireJob) : AcquireJob := if j.phase = .ready then j
  else if isFinal (downloadCause j.lastErr) then
    wantLocked { j with lastErr := some momentary, retry := true }
  else wantLocked { j with lastErr := downloadCause j.lastErr }

/-- What `run` records when `Materialize` has returned, and where it goes on. -/
def record (j : AcquireJob) (grew : Bool) : Option Cause → AcquireJob
  | none => { j with phase := .ready, lastErr := none, point := .gone }
  | some e =>
    match e.coming with
    | some true => { j with phase := .fetching, lastErr := none, point := .resting }
    | some false => { j with phase := .waiting, lastErr := some (.cause e), point := .resting }
    | none =>
      if e.ended || e.waitsOnPackage then
        { j with phase := .waiting, lastErr := some (.cause e), point := .ending }
      else
        let idle := if grew then 0 else j.idle + 1
        if !e.transient || MaxDownloadAttempts ≤ idle then
          { j with phase := .waiting, lastErr := some (.download idle e), idle, point := .ending }
        else { j with phase := .waiting, lastErr := some (.cause e), idle, point := .resting }

def advance (j : AcquireJob) : Option AcquireJob := match j.point with
  | .top => some { j with
      phase := .fetching, attempt := j.attempt + 1, lastErr := clearBound j.lastErr, point := .asking }
  | .asking => some { j with
      retry := false, reported := true, point := .materializing,
      calls := j.calls ++ [⟨j.retry, j.reported⟩] }
  | .returned err grew => some (j.record grew err)
  | .ending => some { j with point := .held }
  | .held => if j.wake then some { j with wake := false, idle := 0, point := .top } else none
  | .resting => if j.wake then some { j with wake := false, point := .top } else none
  | .materializing | .gone => none

end AcquireJob

inductive Event
  | want
  | pending
  | status
  | retry
  | advance
  | returns (err : Option Cause) (grew : Bool)
  | timer
  deriving DecidableEq

/-- One event, when it is possible; `pending` of the same material and `Status` only read. -/
def AcquireJob.step (j : AcquireJob) : Event → Option AcquireJob
  | .want => some j.wantLocked
  | .pending | .status => some j
  | .retry => some j.retryCall
  | .advance => j.advance
  | .returns err grew =>
    if j.point = .materializing then some { j with point := .returned err grew } else none
  | .timer => if j.point = .resting then some { j with point := .top } else none

def AcquireJob.after (j : AcquireJob) (events : List Event) : Option AcquireJob :=
  events.foldlM AcquireJob.step j

/-- The attempt has ended for good: the end is recorded and `Ended` was called. -/
structure AcquireJob.Ended (j : AcquireJob) : Prop where
  point : j.point = .held
  phase : j.phase = .waiting
  final : isFinal j.lastErr

namespace AcquireJob
variable {j j' : AcquireJob}

section
variable (h : j.Ended) (hwake : j.wake = false) (hbound : materialWaitsOnPackage j.lastErr = false)
include h hwake hbound

/-- Nothing but a retry moves an ended job that no token waits for. -/
theorem Ended.step_eq {e : Event} (he : e ≠ .retry) (hstep : j.step e = some j') : j' = j := by
  have hkept : clearBound j.lastErr = j.lastErr := by simp [clearBound, hbound]
  cases e with
  | want =>
    have hwant : j.wantLocked = j := by
      unfold wantLocked
      rw [hkept, if_pos h.final, if_neg (by simp [h.phase])]
    exact (Option.some.inj hstep).symm.trans hwant
  | pending | status => exact (Option.some.inj hstep).symm
  | retry => exact absurd rfl he
  | advance => simp [step, advance, h.point, hwake] at hstep
  | returns | timer => simp [step, h.point] at hstep

theorem Ended.after_eq {events : List Event} (hno : .retry ∉ events)
    (hafter : j.after events = some j') : j' = j := by
  have hguard : Lib.guarded step (fun _ e _ => e ≠ .retry) j events :=
    Lib.guarded_of_forall fun e he _ _ => decide_eq_true fun h => hno (h ▸ he)
  refine Lib.guarded_invariant (P := (· = j)) ?_ rfl hguard hafter
  rintro _ e k rfl hk he
  exact h.step_eq hwake hbound (by simpa using he) hk

end

/-- A held job takes a token up by asking again. -/
theorem asks_of_wake (hpoint : j.point = .held) (hwake : j.wake) :
    ∃ j', j.after [.advance, .advance, .advance] = some j' ∧ ∃ call, j'.calls = j.calls ++ [call] := by
  simp [after, step, advance, hpoint, hwake]

end AcquireJob

/-- A job that has ended for good stays closed until a retry exactly when no token was left
in its wake channel and the recorded error does not wait on the package. -/
theorem ended_stays_closed_iff (j : AcquireJob) (h : j.Ended) :
    (∀ events, .retry ∉ events → ∀ j', j.after events = some j' → j'.calls = j.calls) ↔
      j.wake = false ∧ materialWaitsOnPackage j.lastErr = false := by
  refine ⟨fun hclosed => ⟨?_, ?_⟩, ?_⟩
  · -- a token left from before the end is taken by the wait itself
    by_contra hwake
    obtain ⟨j', hj', call, hcalls⟩ := AcquireJob.asks_of_wake h.point (by simpa using hwake)
    have hsame := hclosed _ (by simp) j' hj'
    simp [hcalls] at hsame
  · -- a want forgets an error that waits on the package, and leaves a token
    by_contra hbound
    have hopen : isFinal (clearBound j.lastErr) = false := by
      simp [clearBound, eq_true_of_ne_false hbound, isFinal]
    have hwant : j.wantLocked = { j with lastErr := clearBound j.lastErr, wake := true } := by
      simp [AcquireJob.wantLocked, h.phase, hopen]
    obtain ⟨j', hj', call, hcalls⟩ :=
      AcquireJob.asks_of_wake (j := { j with lastErr := _, wake := true }) h.point rfl
    rw [← hwant] at hj'
    have hsame := hclosed [.want, .advance, .advance, .advance] (by simp) j' hj'
    simp [hcalls] at hsame
  · rintro ⟨hwake, hbound⟩ events hno j' hj'
    rw [h.after_eq hwake hbound hno hj']

def endedJob (wake : Bool) : AcquireJob :=
  ⟨.waiting, 1, some (.download 1 ⟨none, false, false, false⟩), wake, false, true, 1, .held, [⟨false, false⟩]⟩

theorem ended_stays_closed_iff_endedJob :
    (endedJob false).Ended ∧ ∀ events, .retry ∉ events → ∀ j', (endedJob false).after events = some j' →
      j'.calls = (endedJob false).calls :=
  have hended : (endedJob false).Ended := ⟨rfl, rfl, rfl⟩
  ⟨hended, (ended_stays_closed_iff (endedJob false) hended).mpr ⟨rfl, rfl⟩⟩

/-- A want while the attempt runs, the download then refused: the job ends for good and asks
again on its own. -/
theorem ended_job_asks_again : ∃ j, AcquireJob.new.after [.advance, .advance, .want,
        .returns (some ⟨none, false, false, false⟩) false, .advance, .advance] = some j ∧ j.Ended ∧
      ∃ j', j.after [.advance, .advance, .advance] = some j' ∧ j'.calls.length = j.calls.length + 1 :=
  ⟨endedJob true, rfl, ⟨rfl, rfl, rfl⟩, _, rfl, rfl⟩

end AiiOs.PluginHost
