import Mathlib.Algebra.Order.Group.Nat

/-! internal/audio, audio.go: the input side of the pump, which passes a source's frames on to
the engine, and the cutoff that may be set while it runs. Positions are counted in samples; of
the resampler only they are kept. -/

namespace AiiOs.Audio

/-- The rates of the source and the engine; `convert` says that their formats differ. -/
structure Formats where
  rate : Nat
  engineRate : Nat
  convert : Bool
  deriving DecidableEq, Repr

/-- `TargetPos`. -/
def Formats.targetPos (f : Formats) (src : Nat) : Nat :=
  if f.rate = f.engineRate then src else (src * f.engineRate + f.rate - 1) / f.rate

def Formats.engine (f : Formats) (src : Nat) : Nat := if f.convert then f.targetPos src else src

inductive Written
  | pcm (upTo : Nat)
  | fin (start : Nat)
  deriving DecidableEq, Repr

/-- Where `runInput` and `endInput` are, with the values they hold. A frame is a start and a
number of samples; `cutoff` is the one that was read for it. -/
inductive At
  | read
  | got (start n : Nat)
  | deliver (start n : Nat) (cutoff : Option Nat)
  | write (upTo : Nat) (cutoff : Option Nat)
  | check (cutoff : Option Nat)
  | ending (stop : Nat)
  | tail (stop : Nat)
  | writeEnd (stop : Nat)
  | done
  deriving DecidableEq, Repr

/-- The pump. `frames` are the lengths the source has left and `ends` whether an end frame
stands behind them; `after` is what was written, from the return of `Cutoff` on where it has
returned. `back` says that `delivered` was lowered, and `crossed` that the cutoff came too late for
what was on its way. -/
structure Pump where
  frames : List Nat
  ends : Bool
  next : Nat
  pc : At
  cutoff : Option Nat
  delivered : Nat
  inDone : Bool
  inPos : Nat
  outPos : Nat
  returned : Option Nat
  after : List Written
  back : Bool
  crossed : Bool
  deriving DecidableEq, Repr

/-- A step of `runInput`, or the call of `Cutoff`. `taken` is how far the resampler gets with
what it was fed, and `ok` whether the channel takes a frame. -/
inductive Event
  | step (taken : Nat) (ok : Bool)
  | cutoff (endSample : Nat)
  deriving DecidableEq, Repr

namespace Pump

def new (frames : List Nat) (ends : Bool) : Pump :=
  ⟨frames, ends, 0, .read, none, 0, false, 0, 0, none, [], false, false⟩

def deliverTo (n : Nat) (p : Pump) : Pump := { p with delivered := n, back := p.back || n < p.delivered }

/-- `writeInput`: a channel that takes nothing ends the input. -/
def writeInput (w : Written) (ok : Bool) (next : At) (p : Pump) : Pump :=
  if ok then { p with pc := next, after := p.after ++ [w] }
  else { p with pc := .done, inDone := true }

/-- What is on its way when the cutoff is set to `r`, and does not end there: a frame for which
the cutoff was read before, or the source's own end. -/
def onItsWay (r : Nat) : At → Bool
  | .deliver start n _ => r < start + n
  | .ending stop => stop ≠ r
  | _ => false

/-- `Cutoff`; it is called once. -/
def setCutoff (endSample : Nat) (p : Pump) : Pump := if p.returned.isSome then p
  else if p.inDone then { p with returned := some p.delivered, after := [] }
  else
    let r := max endSample p.delivered
    { p with cutoff := some r, returned := some r, after := [], crossed := p.crossed || onItsWay r p.pc }

section
variable (f : Formats)

/-- The frame goes through the resampler, where there is one; it may keep all of it back. -/
def convert (taken start n : Nat) (cutoff : Option Nat) (p : Pump) : Pump := if f.convert then
    let out := min (max taken p.outPos) (max p.outPos (f.targetPos (p.inPos + n)))
    { p with inPos := p.inPos + n, outPos := out, pc := if out = p.outPos then .read else .write out cutoff }
  else { p with pc := .write (start + n) cutoff }

def step (taken : Nat) (ok : Bool) (p : Pump) : Pump := match p.pc with
  | .read =>
    match p.frames with
    | n :: frames => { p with frames := frames, next := p.next + n, pc := .got p.next n }
    | [] =>
      if p.ends then { p with pc := .ending p.next, crossed := p.crossed || p.returned.any fun r =>
        p.next ≠ r }
      else { p with pc := .done, inDone := true }
  | .got start n =>
    match p.cutoff with
    | none => { p with pc := .deliver start n none }
    | some c => { p with pc := if c ≤ start then .ending c else .deliver start (min n (c - start)) (some c) }
  | .deliver start n cutoff => (p.deliverTo (start + n)).convert f taken start n cutoff
  | .write upTo cutoff => p.writeInput (.pcm upTo) ok (.check cutoff)
  | .check cutoff => { p with pc := if cutoff = some p.delivered then .ending p.delivered else .read }
  | .ending stop => { p.deliverTo stop with inDone := true, pc := .tail stop }
  | .tail stop =>
    if f.convert ∧ p.outPos < f.targetPos p.inPos then
      { p with outPos := f.targetPos p.inPos }.writeInput (.pcm (f.targetPos p.inPos)) ok (.writeEnd stop)
    else { p with pc := .writeEnd stop }
  | .writeEnd stop => p.writeInput (.fin (f.engine stop)) ok .done
  | .done => p

def exec (p : Pump) : Event → Pump
  | .step taken ok => p.step f taken ok
  | .cutoff endSample => p.setCutoff endSample

def run (frames : List Nat) (ends : Bool) (events : List Event) :
    Pump := events.foldl (exec f) (new frames ends)

end

end Pump

/-! ### What is kept -/

section
variable {f : Formats} {p : Pump}

theorem Formats.targetPos_mono {a b : Nat} (h : a ≤ b) : f.targetPos a ≤ f.targetPos b := by
  unfold targetPos
  split_ifs
  · exact h
  · exact Nat.div_le_div_right (Nat.sub_le_sub_right (Nat.add_le_add_right (Nat.mul_le_mul_right _ h) _) _)

theorem Formats.engine_mono {a b : Nat} (h : a ≤ b) : f.engine a ≤ f.engine b := by
  unfold engine
  split_ifs
  · exact targetPos_mono h
  · exact h

variable (f) in
/-- What may be written after `r` was returned. -/
def Written.Within (r : Nat) : Written → Prop
  | .pcm upTo => upTo ≤ f.engine r
  | .fin start => start = f.engine r

variable (f) in
/-- What holds at each place. -/
def Place (p : Pump) : At → Prop
  | .read => p.inDone = false ∧ p.delivered ≤ p.next
  | .got start n => p.inDone = false ∧ p.delivered ≤ start ∧ start + n = p.next
  | .deliver start n cutoff => p.inDone = false ∧ p.delivered ≤ start ∧ start + n ≤ p.next ∧
      (∀ r, p.returned = some r → start + n ≤ r) ∧ (∀ c, cutoff = some c → p.cutoff = some c)
  | .write upTo cutoff => p.inDone = false ∧ p.delivered ≤ p.next ∧ upTo ≤ f.engine p.delivered ∧
      ∀ c, cutoff = some c → p.cutoff = some c
  | .check cutoff => p.inDone = false ∧ p.delivered ≤ p.next ∧ ∀ c, cutoff = some c → p.cutoff = some c
  | .ending stop => p.inDone = false ∧ p.delivered ≤ stop ∧ ∀ r, p.returned = some r → stop = r
  | .tail stop => p.inDone = true ∧ p.delivered = stop ∧ ∀ r, p.returned = some r → stop = r
  | .writeEnd stop => p.inDone = true ∧ p.delivered = stop ∧ ∀ r, p.returned = some r → stop = r
  | .done => p.inDone = true

variable (f) in
structure Fine (p : Pump) : Prop where
  back : p.back = false
  place : Place f p p.pc
  inPos : p.inPos ≤ p.delivered
  cutoff : ∀ c, p.cutoff = some c → p.returned = some c
  returned : ∀ r, p.returned = some r → p.delivered ≤ r ∧ (p.inDone = false → p.cutoff = some r) ∧
    ∀ w ∈ p.after, w.Within f r

theorem Fine.setCutoff (h : Fine f p) {endSample : Nat}
    (hc : (p.setCutoff endSample).crossed = false) : Fine f (p.setCutoff endSample) := by
  unfold Pump.setCutoff at hc ⊢
  by_cases hret : p.returned.isSome
  · rw [if_pos hret]
    exact h
  rw [if_neg hret] at hc ⊢
  have hnone : p.returned = none := Option.not_isSome_iff_eq_none.mp hret
  have hcut : p.cutoff = none := by
    cases hp : p.cutoff with
    | none => rfl
    | some c => exact absurd (h.cutoff c hp) (by rw [hnone]; nofun)
  have hplace := h.place
  by_cases hdone : p.inDone
  · -- The input has ended: the position is where it ended.
    rw [if_pos hdone]
    refine ⟨h.back, ?_, h.inPos, fun c hc => ?_, ?_⟩
    · revert hplace
      cases p.pc
      case tail stop => exact fun hplace =>
        ⟨hdone, hplace.2.1, fun r hr => hplace.2.1.symm.trans (Option.some.inj hr)⟩
      case writeEnd stop => exact fun hplace =>
        ⟨hdone, hplace.2.1, fun r hr => hplace.2.1.symm.trans (Option.some.inj hr)⟩
      case done => exact fun _ => hdone
      -- at the other places the input has not ended
      all_goals exact fun hplace => absurd hdone (by rw [hplace.1]; nofun)
    · rw [hcut] at hc
      cases hc
    · rintro r ⟨⟩
      exact ⟨le_refl _, fun hd => absurd hdone (by rw [hd]; nofun), nofun⟩
  · rw [if_neg hdone] at hc ⊢
    rw [Bool.or_eq_false_iff] at hc
    have hway := hc.2
    have hle : p.delivered ≤ max endSample p.delivered := le_max_right ..
    refine ⟨h.back, ?_, h.inPos, fun c hc => hc, ?_⟩
    · revert hplace hway
      cases p.pc with
      | read => exact fun hplace _ => hplace
      | got start n => exact fun hplace _ => hplace
      | deliver start n cutoff =>
        rintro ⟨h1, h2, h3, -, h5⟩ hway
        refine ⟨h1, h2, h3, ?_, fun c hc => absurd (h5 c hc) (by rw [hcut]; nofun)⟩
        rintro r ⟨⟩
        exact Nat.le_of_not_lt (of_decide_eq_false hway)
      | write upTo cutoff =>
        rintro ⟨h1, h2, h3, h4⟩ -
        exact ⟨h1, h2, h3, fun c hc => absurd (h4 c hc) (by rw [hcut]; nofun)⟩
      | check cutoff =>
        rintro ⟨h1, h2, h3⟩ -
        exact ⟨h1, h2, fun c hc => absurd (h3 c hc) (by rw [hcut]; nofun)⟩
      | ending stop =>
        rintro ⟨h1, h2, -⟩ hway
        refine ⟨h1, h2, ?_⟩
        rintro r ⟨⟩
        exact not_not.mp (of_decide_eq_false hway)
      | tail stop => exact fun hplace _ => absurd hplace.1 hdone
      | writeEnd stop => exact fun hplace _ => absurd hplace.1 hdone
      | done => exact fun hplace _ => absurd hplace hdone
    · rintro r ⟨⟩
      exact ⟨hle, fun _ => rfl, nofun⟩

theorem Fine.writeInput (h : Fine f p) {w : Written} (ok : Bool) {next : At}
    (hw : ∀ r, p.returned = some r → w.Within f r)
    (hnext : Place f (p.writeInput w true next) next) : Fine f (p.writeInput w ok next) := by
  cases ok with
  | false => refine ⟨h.back, rfl, h.inPos, h.cutoff, fun r hr =>
      ⟨(h.returned r hr).1, nofun, (h.returned r hr).2.2⟩⟩
  | true =>
    refine ⟨h.back, hnext, h.inPos, h.cutoff, fun r hr => ⟨(h.returned r hr).1, (h.returned r hr).2.1, ?_⟩⟩
    intro v hv
    rcases List.mem_append.mp hv with hv | hv
    · exact (h.returned r hr).2.2 v hv
    · rw [List.mem_singleton.mp hv]
      exact hw r hr

theorem Fine.deliver (h : Fine f p) {start n : Nat} {cutoff : Option Nat}
    (hpc : p.pc = .deliver start n cutoff)
    (taken : Nat) : Fine f ((p.deliverTo (start + n)).convert f taken start n cutoff) := by
  have hplace := h.place
  rw [hpc] at hplace
  obtain ⟨hopen, hstart, hnext, hret, hcut⟩ := hplace
  have hback : (p.back || decide (start + n < p.delivered)) = false := by
    rw [h.back, Bool.false_or]
    exact decide_eq_false (by omega)
  have hin : p.inPos + n ≤ start + n := Nat.add_le_add_right (le_trans h.inPos hstart) n
  have hreturned : ∀ r, p.returned = some r → start + n ≤ r ∧ (p.inDone = false → p.cutoff = some r) ∧
      ∀ w ∈ p.after, w.Within f r := fun r hr => ⟨hret r hr, (h.returned r hr).2⟩
  unfold Pump.convert
  split_ifs with hconv
  · refine ⟨hback, ?_, hin, h.cutoff, hreturned⟩
    dsimp only
    split_ifs with hnothing
    · exact ⟨hopen, hnext⟩
    · refine ⟨hopen, hnext, ?_, hcut⟩
      change min (max taken p.outPos) (max p.outPos (f.targetPos (p.inPos + n))) ≤ f.engine (start + n)
      have hmono : f.targetPos (p.inPos + n) ≤ f.targetPos (start + n) := Formats.targetPos_mono hin
      rw [Formats.engine, if_pos hconv]
      change ¬min (max taken p.outPos) (max p.outPos (f.targetPos (p.inPos + n))) = p.outPos at hnothing
      omega
  · refine ⟨hback, ⟨hopen, hnext, ?_, hcut⟩,
      le_trans h.inPos (le_trans hstart (Nat.le_add_right ..)), h.cutoff, hreturned⟩
    rw [Formats.engine, if_neg hconv]
    exact le_refl _

theorem Fine.step (h : Fine f p) {taken : Nat} {ok : Bool} (hc : (p.step f taken ok).crossed = false) :
    Fine f (p.step f taken ok) := by
  have hplace := h.place
  unfold Pump.step at hc ⊢
  -- what holds at each place of the loop is in `hplace`
  cases hpc : p.pc with
  | read =>
    rw [hpc] at hplace hc
    cases hframes : p.frames with
    | cons n frames => exact ⟨h.back, ⟨hplace.1, hplace.2, rfl⟩, h.inPos, h.cutoff, h.returned⟩
    | nil =>
      rw [hframes] at hc
      by_cases hends : p.ends
      · rw [if_pos hends] at hc ⊢
        rw [Bool.or_eq_false_iff] at hc
        refine ⟨h.back, ⟨hplace.1, hplace.2, fun r hr => ?_⟩, h.inPos, h.cutoff, h.returned⟩
        have hany := hc.2
        rw [show p.returned = some r from hr] at hany
        exact not_not.mp (of_decide_eq_false hany)
      · rw [if_neg hends]
        exact ⟨h.back, rfl, h.inPos, h.cutoff, fun r hr =>
          ⟨(h.returned r hr).1, nofun, (h.returned r hr).2.2⟩⟩
  | got start n =>
    rw [hpc] at hplace
    obtain ⟨hopen, hstart, hnext⟩ := hplace
    have hcutoff := h.cutoff
    have hreturned := h.returned
    cases hcut : p.cutoff with
    | none =>
      rw [hcut] at hcutoff hreturned
      refine ⟨h.back, ⟨hopen, hstart, hnext.le, fun r hr => ?_, nofun⟩, h.inPos, hcutoff, hreturned⟩
      cases (hreturned r hr).2.1 hopen
    | some c =>
      rw [hcut] at hcutoff hreturned
      have hret := hcutoff c rfl
      dsimp only
      split
      · refine ⟨h.back, ⟨hopen, (hreturned c hret).1, fun r hr => ?_⟩, h.inPos, hcutoff, hreturned⟩
        exact Option.some.inj (hret.symm.trans hr)
      · refine ⟨h.back, ⟨hopen, hstart, ?_, fun r hr => ?_, fun _ hc => hc⟩, h.inPos, hcutoff, hreturned⟩
        · change start + min n (c - start) ≤ p.next
          omega
        · have hcr : c = r := Option.some.inj (hret.symm.trans hr)
          omega
  | deliver start n cutoff => exact h.deliver hpc taken
  | write upTo cutoff =>
    rw [hpc] at hplace
    obtain ⟨hopen, hnext, hup, hcut⟩ := hplace
    refine h.writeInput ok (fun r hr => ?_) ⟨hopen, hnext, hcut⟩
    exact hup.trans (Formats.engine_mono (h.returned r hr).1)
  | check cutoff =>
    rw [hpc] at hplace
    obtain ⟨hopen, hnext, hcut⟩ := hplace
    dsimp only
    split_ifs with heq
    · refine ⟨h.back, ⟨hopen, le_refl _, fun r hr => ?_⟩, h.inPos, h.cutoff, h.returned⟩
      exact Option.some.inj ((h.cutoff _ (hcut _ heq)).symm.trans hr)
    · exact ⟨h.back, ⟨hopen, hnext⟩, h.inPos, h.cutoff, h.returned⟩
  | ending stop =>
    rw [hpc] at hplace
    obtain ⟨hopen, hstop, hret⟩ := hplace
    refine ⟨?_, ⟨rfl, rfl, hret⟩, h.inPos.trans hstop, h.cutoff, fun r hr =>
      ⟨(hret r hr).le, nofun, (h.returned r hr).2.2⟩⟩
    change (p.back || decide (stop < p.delivered)) = false
    rw [h.back]
    exact decide_eq_false (not_lt.mpr hstop)
  | tail stop =>
    rw [hpc] at hplace
    dsimp only
    split_ifs with htail
    · have hflushed : Fine f { p with outPos := f.targetPos p.inPos } :=
        ⟨h.back, by rw [show Pump.pc _ = _ from hpc]; exact hplace, h.inPos, h.cutoff, h.returned⟩
      refine hflushed.writeInput ok (fun r hr => ?_) hplace
      change f.targetPos p.inPos ≤ f.engine r
      rw [Formats.engine, if_pos htail.1]
      exact Formats.targetPos_mono (h.inPos.trans (h.returned r hr).1)
    · exact ⟨h.back, hplace, h.inPos, h.cutoff, h.returned⟩
  | writeEnd stop =>
    rw [hpc] at hplace
    refine h.writeInput ok (fun r hr => ?_) hplace.1
    change f.engine stop = f.engine r
    rw [hplace.2.2 r hr]
  | done => exact h

theorem crossed_step (p : Pump) (taken : Nat) (ok : Bool) (h : (p.step f taken ok).crossed = false) :
    p.crossed = false := by
  unfold Pump.step Pump.writeInput Pump.deliverTo Pump.convert at h
  cases hpc : p.pc with
  | read =>
    rw [hpc] at h
    cases hframes : p.frames with
    | cons n frames => simpa [hframes] using h
    | nil =>
      simp only [hframes] at h
      split_ifs at h
      · exact (Bool.or_eq_false_iff.mp h).1
      · exact h
  | _ =>
    rw [hpc] at h
    dsimp only at h
    repeat' split at h
    all_goals exact h

theorem crossed_setCutoff (p : Pump) (endSample : Nat) (h : (p.setCutoff endSample).crossed = false) :
    p.crossed = false := by
  unfold Pump.setCutoff at h
  split_ifs at h
  · exact h
  · exact h
  · exact (Bool.or_eq_false_iff.mp h).1

theorem fine_exec {e : Event} (h : p.crossed = false → Fine f p) (hc : (p.exec f e).crossed = false) :
    Fine f (p.exec f e) := by
  cases e with
  | step taken ok => exact (h (crossed_step p taken ok hc)).step hc
  | cutoff endSample => exact (h (crossed_setCutoff p endSample hc)).setCutoff hc

/-- While the cutoff does not come too late for a frame on its way, and the source's own end is
not another one, nothing behind the position that was returned is written, the end stands there
and what was delivered is not taken back. -/
theorem written_within_cutoff (f : Formats) (frames : List Nat) (ends : Bool) (events : List Event)
    (h : (Pump.run f frames ends events).crossed = false) :
    (∀ r, (Pump.run f frames ends events).returned = some r →
      ∀ w ∈ (Pump.run f frames ends events).after, w.Within f r) ∧
      (Pump.run f frames ends events).back = false := by
  have hfine : Fine f (.run f frames ends events) := by
    refine List.foldlRecOn (motive := fun p => p.crossed = false → Fine f p) events _ (fun _ => ?_)
      (fun p hp e _ => fine_exec hp) h
    exact ⟨rfl, ⟨rfl, le_refl _⟩, le_refl _, nofun, nofun⟩
  exact ⟨fun r hr => (hfine.returned r hr).2.2, hfine.back⟩

end

/-! ### A cutoff that comes too late -/

def sameFormat : Formats := ⟨16000, 16000, false⟩

def steps (n : Nat) : List Event := List.replicate n (.step 0 true)

/-- The cutoff is set when the first frame is about to be delivered: the whole frame is
written behind it, and then the delivered position goes back. -/
theorem written_past_cutoff :
    (Pump.run sameFormat [100, 100] false (steps 2 ++ [.cutoff 50] ++ steps 7)).returned = some 50 ∧
      Written.pcm 100 ∈ (Pump.run sameFormat [100, 100] false (steps 2 ++ [.cutoff 50] ++ steps 7)).after ∧
      (Pump.run sameFormat [100, 100] false (steps 2 ++ [.cutoff 50] ++ steps 7)).back := by
  decide

theorem written_within_cutoff_in_time :
    (Pump.run sameFormat [100, 100] false ([.cutoff 50] ++ steps 8)).after = [.pcm 50, .fin 50] ∧
      (Pump.run sameFormat [100, 100] false ([.cutoff 50] ++ steps 8)).back = false :=
  ⟨by decide, (written_within_cutoff sameFormat _ _ _ (by decide)).2⟩

end AiiOs.Audio
