import AiiOs.Lib.Text
import Mathlib.Algebra.Order.BigOperators.Group.List
import Mathlib.Algebra.Order.Group.Nat
import Mathlib.Data.List.Nodup

/-! internal/pluginfacility, controller.go: admission. The calls of `admit` wait in a queue
and decide for themselves whether they may start; a step is a region under the facility's
lock, or what a call does between two of them. -/

namespace AiiOs.PluginFacility.Admission
open Lib List

/-! ### What fits -/

structure AdmissionPolicy where
  maxConcurrentStarts : Nat
  budgetBytes : Nat
  reserveBytes : Nat
  deriving DecidableEq, Repr

structure HostMemory where
  available : Nat
  total : Nat
  deriving DecidableEq, Repr

structure Availability where
  host : Option HostMemory
  devices : List Char → Option Nat

/-- What `admit` reads of a prepared release. -/
structure Prepared where
  id : List Char
  voice : Bool
  hostBytes : Nat
  deviceBytes : Option Nat
  backend : List Char
  deriving DecidableEq, Repr

/-- A reservation; `holding` is what its process is known to hold. -/
structure Reservation where
  gen : Nat
  id : List Char
  host : Nat
  device : Option Nat
  backend : List Char
  serving : Bool
  holding : Option Nat
  deriving DecidableEq, Repr

inductive Why
  | behind (id : List Char)
  | startsInFlight
  | hostMemory (besideItsOwn : Bool)
  | oneAtATime
  | device (domain : List Char)
  | unmeasured (domain : List Char)
  deriving DecidableEq, Repr

inductive Verdict
  | admitted
  | waits (why : Why)
  | never (need : Nat) (most : Int)
  deriving DecidableEq, Repr

/-- `DeviceDomains`. -/
def deviceDomains (backend : List Char) : List (List Char) :=
  (backend.splitOnP fun c => c = '+' || c = '_').foldl
    (fun out d => if d ≠ [] ∧ d ≠ charsOf "cpu" ∧ d ∉ out then out ++ [d] else out) []

def Reservation.owes (r : Reservation) : Nat := match r.serving, r.holding with
  | true, some held => r.host - held
  | _, _ => r.host

/-- What `record` of an `EventActive` does to the reservation; `stale` when a later activation
serves already. -/
def Reservation.active (gen : Nat) (stale : Bool) (holding : Option Nat) (r : Reservation) : Reservation :=
  if r.gen = gen ∧ !stale then { r with serving := true, holding := holding } else r

section
variable (reserved : List Reservation)

def declaredHost : Nat := (reserved.map Reservation.host).sum

def owedHost : Nat := (reserved.map Reservation.owes).sum

def inFlight : Nat := reserved.countP fun r => !r.serving

def servingLocked (id : List Char) : Bool := id ≠ [] && reserved.any fun r => r.serving && r.id = id

end

section
variable (pol : AdmissionPolicy) (cap : Availability)

section
variable (reserved : List Reservation) (p : Prepared)

/-- The part of `fitsLocked` about the host's memory. -/
def hostVerdict : Verdict := if cap.host = none ∧ pol.budgetBytes = 0 then
    if 0 < inFlight reserved then .waits .oneAtATime else .admitted
  else
    let most : Option Int := cap.host.map fun h => h.total - pol.reserveBytes
    if most.any fun most => most < (p.hostBytes : Int) then .never p.hostBytes (most.getD 0)
    else if 0 < pol.budgetBytes ∧ pol.budgetBytes < p.hostBytes then .never p.hostBytes pol.budgetBytes
    else
      let free : Int := cap.host.elim (-1) fun h => h.available - pol.reserveBytes - owedHost reserved
      let under : Int := pol.budgetBytes - declaredHost reserved
      let free := if 0 < pol.budgetBytes ∧ (cap.host = none ∨ under < free) then under else free
      if free < p.hostBytes then .waits (.hostMemory (servingLocked reserved p.id)) else .admitted

/-- The part of `fitsLocked` about one device: why it has to be waited for. -/
def deviceWait (domain : List Char) : Option Why :=
  let there := reserved.filter fun r => domain ∈ deviceDomains r.backend
  match cap.devices domain, p.deviceBytes with
  | some available, some need =>
    if (available : Int) - (there.map fun r =>
      r.device.getD 0).sum < need then some (.device domain) else none
  | _, _ => if 0 < inFlight there then some (.unmeasured domain) else none

def fitsLocked : Verdict :=
  if 0 < pol.maxConcurrentStarts ∧ pol.maxConcurrentStarts ≤ inFlight reserved then .waits .startsInFlight
  else
    match hostVerdict pol cap reserved p with
    | .admitted => ((deviceDomains p.backend).findSome? (deviceWait cap reserved p)).elim .admitted .waits
    | v => v

end

/-! ### The queue -/

structure Waiter where
  seq : Nat
  gen : Nat
  need : Prepared
  deriving DecidableEq, Repr

/-- Where a call of `admit` is: before its next look, asleep on a bell, or on its way out. -/
inductive Place
  | ready
  | parked (bell : Nat)
  | leaving
  deriving DecidableEq, Repr

/-- The facility. `doorbells` are the bells to ring next and `rung` those that have been. -/
structure Facility where
  admitSeq : Nat
  queue : List Waiter
  place : Nat → Place
  reserved : List Reservation
  bells : Nat
  doorbells : List Nat
  rung : List Nat

/-- `q` goes before `w`. -/
def goesBefore (q w : Waiter) : Bool :=
  q.seq ≠ w.seq && ((q.need.voice && !w.need.voice) || (q.need.voice = w.need.voice && q.seq < w.seq))

def admissibleLocked (f : Facility) (w : Waiter) : Verdict :=
  match f.queue.find? fun q => goesBefore q w && fitsLocked pol cap f.reserved q.need = .admitted with
  | some q => .waits (.behind q.need.id)
  | none => fitsLocked pol cap f.reserved w.need

namespace Facility

def new : Facility := ⟨0, [], fun _ => .ready, [], 0, [], []⟩

def ringDoorbells (f : Facility) : Facility := { f with rung := f.rung ++ f.doorbells, doorbells := [] }

def put (f : Facility) (w : Waiter) (p : Place) :
    Facility := { f with place := Function.update f.place w.seq p }

/-- `admit` up to its loop. -/
def enqueue (gen : Nat) (p : Prepared) (f : Facility) : Facility := { f with
    admitSeq := f.admitSeq + 1
    queue := f.queue ++ [⟨f.admitSeq + 1, gen, p⟩]
    place := Function.update f.place (f.admitSeq + 1) .ready }

def reserve (w : Waiter) (f : Facility) : Facility :=
  { f with reserved := f.reserved.filter (fun r => r.gen ≠ w.gen) ++
      [⟨w.gen, w.need.id, w.need.hostBytes, w.need.deviceBytes, w.need.backend, false, none⟩] }

/-- A turn of `admit`'s loop. `turnedAway`: the host is stopping, the context has ended or
the call is superseded. -/
def look (turnedAway : Bool) (w : Waiter) (f : Facility) : Facility :=
  if turnedAway then f.put w .leaving
  else
    match admissibleLocked pol cap f w with
    | .never _ _ => f.put w .leaving
    | .admitted => (f.reserve w).put w .leaving
    | .waits _ => { f.put w (.parked f.bells) with bells := f.bells + 1, doorbells := f.doorbells ++
        [f.bells] }

/-- The deferred part of `admit`. -/
def leave (w : Waiter) (f : Facility) : Facility :=
  { f with queue := f.queue.filter fun q => q.seq ≠ w.seq }.ringDoorbells

def release (gen : Nat) (f : Facility) : Facility :=
  { f with reserved := f.reserved.filter fun r => r.gen ≠ gen }.ringDoorbells

def active (gen : Nat) (stale : Bool) (holding : Option Nat) (f : Facility) : Facility :=
  { f with reserved := f.reserved.map (Reservation.active gen stale holding) }.ringDoorbells

end Facility

/-- What the calls do, each at its own time; `ring` is for the observations, holds and events
that change nothing which admission looks at. -/
inductive Step : Facility → Facility → Prop
  | enqueue {f} (gen : Nat) (p : Prepared) : Step f (f.enqueue gen p)
  | look {f} (turnedAway : Bool) (w : Waiter) : w ∈ f.queue → f.place w.seq = .ready →
      Step f (f.look pol cap turnedAway w)
  | wake {f} (w : Waiter) (bell : Nat) : f.place w.seq = .parked bell → bell ∈ f.rung →
      Step f (f.put w .ready)
  | cancel {f} (w : Waiter) (bell : Nat) : w ∈ f.queue → f.place w.seq = .parked bell →
      Step f (f.put w .leaving)
  | leave {f} (w : Waiter) : f.place w.seq = .leaving → Step f (f.leave w)
  | release {f} (gen : Nat) : Step f (f.release gen)
  | active {f} (gen : Nat) (stale : Bool) (holding : Option Nat) : Step f (f.active gen stale holding)
  | ring {f} : Step f f.ringDoorbells

abbrev Steps := Relation.ReflTransGen (Step pol cap)

/-! ### What is kept -/

structure Within (reserved : List Reservation) : Prop where
  budget : 0 < pol.budgetBytes → declaredHost reserved ≤ pol.budgetBytes
  starts : 0 < pol.maxConcurrentStarts → inFlight reserved ≤ pol.maxConcurrentStarts

/-- Who sleeps on a bell that is not rung has to wait. -/
def Rested (f : Facility) : Prop :=
  ∀ w ∈ f.queue, ∀ b, f.place w.seq = .parked b → b ∉ f.rung → ∃ why, admissibleLocked pol cap f w =
    .waits why

/-- Someone on the way out is going to ring for those who were decided too early. -/
structure Kept (f : Facility) : Prop where
  within : Within pol f.reserved
  seqs : (f.queue.map Waiter.seq).Nodup
  seq_le : ∀ w ∈ f.queue, w.seq ≤ f.admitSeq
  bells : ∀ w ∈ f.queue, ∀ b, f.place w.seq = .parked b → b ∈ f.rung ∨ b ∈ f.doorbells
  rested : (∃ w ∈ f.queue, f.place w.seq = .leaving) ∨ Rested pol cap f

variable {pol cap} {f : Facility} {w : Waiter} {reserved : List Reservation} {p : Prepared}

theorem fitsLocked_eq_admitted (h : fitsLocked pol cap reserved p = .admitted) :
    hostVerdict pol cap reserved p = .admitted ∧
      (0 < pol.maxConcurrentStarts → inFlight reserved < pol.maxConcurrentStarts) := by
  unfold fitsLocked at h
  split at h
  · cases h
  rename_i hs
  refine ⟨?_, fun h0 => not_le.mp fun hle => hs ⟨h0, hle⟩⟩
  cases hv : hostVerdict pol cap reserved p with
  | admitted => rfl
  | waits why =>
    rw [hv] at h
    cases h
  | never need most =>
    rw [hv] at h
    cases h

theorem declaredHost_filter_le (q : Reservation → Bool) :
    declaredHost (reserved.filter q) ≤ declaredHost reserved :=
  (filter_sublist.map _).sum_le_sum fun _ _ => Nat.zero_le _

theorem inFlight_filter_le (q : Reservation → Bool) : inFlight (reserved.filter q) ≤ inFlight reserved :=
  filter_sublist.countP_le

theorem Within.filter (h : Within pol reserved) (q : Reservation → Bool) : Within pol (reserved.filter q) :=
  ⟨fun h0 => (declaredHost_filter_le q).trans (h.budget h0), fun h0 => (inFlight_filter_le q).trans
    (h.starts h0)⟩

theorem within_reserve (h : fitsLocked pol cap f.reserved w.need = .admitted) :
    Within pol (f.reserve w).reserved := by
  obtain ⟨hhost, hstarts⟩ := fitsLocked_eq_admitted h
  refine ⟨fun h0 => ?_, fun h0 => ?_⟩
  · have hle : declaredHost f.reserved + w.need.hostBytes ≤ pol.budgetBytes := by
      unfold hostVerdict at hhost
      rw [if_neg fun h' => h0.ne' h'.2] at hhost
      dsimp only at hhost
      split_ifs at hhost with _ _ hu hfree hfree
      · omega
      · omega
    have hfil := @declaredHost_filter_le f.reserved (·.gen ≠ w.gen)
    rw [Facility.reserve, declaredHost, map_append, sum_append]
    change declaredHost _ + (w.need.hostBytes + 0) ≤ _
    omega
  · have hfil := @inFlight_filter_le f.reserved (·.gen ≠ w.gen)
    rw [Facility.reserve, inFlight, countP_append]
    change inFlight _ + 1 ≤ _
    omega

theorem Within.active (h : Within pol reserved) (gen : Nat) (stale : Bool) (holding : Option Nat) :
    Within pol (reserved.map (Reservation.active gen stale holding)) := by
  refine ⟨fun h0 => ?_, fun h0 => ?_⟩
  · refine le_of_eq_of_le ?_ (h.budget h0)
    rw [declaredHost, List.map_map]
    congr 2
    funext r
    rw [Function.comp_apply, Reservation.active]
    split_ifs <;> rfl
  · refine le_trans ?_ (h.starts h0)
    rw [inFlight, countP_map]
    refine countP_mono_left fun r _ hr => ?_
    rw [Function.comp_apply, Reservation.active] at hr
    split_ifs at hr
    · cases hr
    · exact hr

variable {g : Facility}

theorem place_put (q : Waiter) (x : Place) :
    (f.put w x).place q.seq = if q.seq = w.seq then x else f.place q.seq := by
  exact Function.update_apply ..

theorem kept_new : Kept pol cap .new := by
  refine ⟨⟨fun _ => Nat.zero_le _, fun _ => Nat.zero_le _⟩, nodup_nil, nofun, nofun, .inr nofun⟩

section
variable (h : Kept pol cap f)
include h

theorem Kept.ringing (hw : Within pol g.reserved) (hq : g.queue.Sublist f.queue)
    (hseq : g.admitSeq = f.admitSeq) (hplace : g.place = f.place) (hrung : g.rung = f.rung)
    (hbells : g.doorbells = f.doorbells) : Kept pol cap g.ringDoorbells := by
  have hall : ∀ w ∈ g.queue, ∀ b, g.place w.seq = .parked b → b ∈ g.rung ++ g.doorbells := by
    intro w hw b hb
    rw [hrung, hbells]
    exact mem_append.mpr (h.bells w (hq.subset hw) b (hplace ▸ hb))
  refine ⟨hw, h.seqs.sublist (hq.map _), ?_, fun w hw b hb => .inl (hall w hw b hb), .inr ?_⟩
  · exact fun w hw => hseq ▸ h.seq_le w (hq.subset hw)
  · exact fun w hw b hb hnot => absurd (hall w hw b hb) hnot

theorem Kept.enqueue (gen : Nat) (p : Prepared) : Kept pol cap (f.enqueue gen p) := by
  have hold : ∀ w ∈ f.queue, (f.enqueue gen p).place w.seq = f.place w.seq := fun w hw =>
    Function.update_of_ne (ne_of_lt (Nat.lt_succ_of_le (h.seq_le w hw))) ..
  have hnew : (f.enqueue gen p).place (f.admitSeq + 1) = .ready := Function.update_self ..
  have hmem : ∀ w ∈ (f.enqueue gen p).queue, w ∈ f.queue ∨ w = ⟨f.admitSeq + 1, gen, p⟩ := fun w hw =>
    (mem_append.mp hw).imp_right mem_singleton.mp
  have hparked : ∀ w ∈ (f.enqueue gen p).queue, ∀ b, (f.enqueue gen p).place w.seq = .parked b →
      w ∈ f.queue ∧ f.place w.seq = .parked b := by
    intro w hw b hb
    rcases hmem w hw with hw | rfl
    · exact ⟨hw, hold w hw ▸ hb⟩
    · rw [hnew] at hb
      cases hb
  refine ⟨h.within, ?_, ?_, ?_, ?_⟩
  · change ((f.queue ++ [_]).map Waiter.seq).Nodup
    rw [map_append]
    refine h.seqs.append (nodup_singleton _) ?_
    rintro _ hmem hone
    obtain ⟨w, hw, rfl⟩ := List.mem_map.mp hmem
    have hle := h.seq_le w hw
    rw [map_singleton, mem_singleton] at hone
    dsimp only at hone
    omega
  · intro w hw
    rcases hmem w hw with hw | rfl
    · exact (h.seq_le w hw).trans (Nat.le_succ _)
    · exact le_rfl
  · intro w hw b hb
    obtain ⟨hw, hb⟩ := hparked w hw b hb
    exact h.bells w hw b hb
  · refine h.rested.imp ?_ ?_
    · rintro ⟨w, hw, hl⟩
      exact ⟨w, mem_append_left _ hw, (hold w hw).trans hl⟩
    · intro hrest w hw b hb hnot
      obtain ⟨hw, hb⟩ := hparked w hw b hb
      obtain ⟨why, hwhy⟩ := hrest w hw b hb hnot
      -- One more in the queue can only be one more to wait behind.
      unfold admissibleLocked Facility.enqueue at *
      rw [find?_append]
      revert hwhy
      cases List.find? _ f.queue with
      | some q => exact fun _ => ⟨_, rfl⟩
      | none =>
        intro hwhy
        cases List.find? _ [_] with
        | some q => exact ⟨_, rfl⟩
        | none => exact ⟨why, hwhy⟩

theorem Kept.leaving (hw : w ∈ f.queue) (hres : Within pol g.reserved)
    (hq : g.queue = f.queue) (hseq : g.admitSeq = f.admitSeq) (hplace : g.place = f.place)
    (hrung : g.rung = f.rung) (hbells : g.doorbells = f.doorbells) : Kept pol cap (g.put w .leaving) := by
  refine ⟨hres, ?_, ?_, ?_, .inl ⟨w, hq ▸ hw, Function.update_self ..⟩⟩
  · exact (congrArg (fun q => (q.map Waiter.seq).Nodup) hq).mpr h.seqs
  · exact fun q hq' => hseq ▸ h.seq_le q (hq ▸ hq')
  · intro q hq' b hb
    rw [place_put] at hb
    split_ifs at hb
    exact hrung ▸ hbells ▸ h.bells q (hq ▸ hq') b (hplace ▸ hb)

theorem Kept.look (turnedAway : Bool) (hw : w ∈ f.queue)
    (hready : f.place w.seq = .ready) :
    Kept pol cap (f.look pol cap turnedAway w) := by
  unfold Facility.look
  split
  · exact h.leaving hw h.within rfl rfl rfl rfl rfl
  cases hv : admissibleLocked pol cap f w with
  | never need most => exact h.leaving hw h.within rfl rfl rfl rfl rfl
  | admitted =>
    have hfits : fitsLocked pol cap f.reserved w.need = .admitted := by
      unfold admissibleLocked at hv
      split at hv
      · cases hv
      · exact hv
    exact h.leaving hw (within_reserve hfits) rfl rfl rfl rfl rfl
  | waits why =>
    refine ⟨h.within, h.seqs, h.seq_le, ?_, ?_⟩
    · intro q hq b hb
      rw [place_put] at hb
      split_ifs at hb with hqw
      · cases hb
        exact .inr (mem_append_right _ (mem_singleton_self _))
      · exact (h.bells q hq b hb).imp_right (mem_append_left _)
    · refine h.rested.imp ?_ ?_
      · rintro ⟨q, hq, hl⟩
        refine ⟨q, hq, ?_⟩
        rw [place_put, if_neg ?_]
        · exact hl
        · intro heq
          rw [heq, hready] at hl
          cases hl
      · intro hrest q hq b hb hnot
        rw [place_put] at hb
        split_ifs at hb with hqw
        · rw [inj_on_of_nodup_map h.seqs hq hw hqw]
          exact ⟨why, hv⟩
        · exact hrest q hq b hb hnot

theorem Kept.wake {b : Nat} (hb : f.place w.seq = .parked b) :
    Kept pol cap (f.put w .ready) := by
  have hparked : ∀ q : Waiter, ∀ b', (f.put w .ready).place q.seq = .parked b' →
      f.place q.seq = .parked b' := by
    intro q b' hb'
    rw [place_put] at hb'
    split_ifs at hb'
    exact hb'
  refine ⟨h.within, h.seqs, h.seq_le, fun q hq b' hb' => h.bells q hq b' (hparked q b' hb'), ?_⟩
  refine h.rested.imp ?_ fun hrest q hq b' hb' => hrest q hq b' (hparked q b' hb')
  rintro ⟨q, hq, hl⟩
  refine ⟨q, hq, ?_⟩
  rw [place_put, if_neg ?_]
  · exact hl
  · intro heq
    rw [heq, hb] at hl
    cases hl

theorem Kept.step (hstep : Step pol cap f g) : Kept pol cap g := by
  cases hstep with
  | enqueue gen p => exact h.enqueue gen p
  | look turnedAway w hw hready => exact h.look turnedAway hw hready
  | wake w bell hb _ => exact h.wake hb
  | cancel w bell hw _ => exact h.leaving hw h.within rfl rfl rfl rfl rfl
  | leave w _ => exact h.ringing h.within filter_sublist rfl rfl rfl rfl
  | release gen => exact h.ringing (h.within.filter _) (.refl _) rfl rfl rfl rfl
  | active gen stale holding => exact h.ringing (h.within.active gen stale holding) (.refl _) rfl rfl rfl rfl
  | ring => exact h.ringing h.within (.refl _) rfl rfl rfl rfl

theorem Kept.steps (hsteps : Steps pol cap f g) : Kept pol cap g := by
  induction hsteps with
  | refl => exact h
  | tail _ hstep ih => exact ih.step hstep

end

/-- Reservations stay within the policy, and when all who wait sleep on bells that are not
rung, there is none of them who could start. -/
theorem admission_within_and_awake (pol : AdmissionPolicy) (cap : Availability) {f : Facility}
    (h : Steps pol cap .new f) :
    (0 < pol.budgetBytes → declaredHost f.reserved ≤ pol.budgetBytes) ∧
      (0 < pol.maxConcurrentStarts → inFlight f.reserved ≤ pol.maxConcurrentStarts) ∧
      ((∀ w ∈ f.queue, ∃ b, f.place w.seq = .parked b ∧ b ∉ f.rung) →
        ∀ w ∈ f.queue, ∃ why, admissibleLocked pol cap f w = .waits why) := by
  have hk : Kept pol cap f := kept_new.steps h
  refine ⟨hk.within.budget, hk.within.starts, fun hall w hw => ?_⟩
  obtain ⟨b, hb, hnot⟩ := hall w hw
  rcases hk.rested with ⟨q, hq, hl⟩ | hrest
  · obtain ⟨b', hb', _⟩ := hall q hq
    rw [hl] at hb'
    cases hb'
  · exact hrest w hw b hb hnot

end

/-! ### Two calls where one may start -/

def oneStart : AdmissionPolicy := ⟨1, 8, 0⟩

def blind : Availability := ⟨none, fun _ => none⟩

def engine (id : List Char) : Prepared := ⟨id, false, 4, none, []⟩

def first : Waiter := ⟨1, 1, engine ['a']⟩

def second : Waiter := ⟨2, 2, engine ['b']⟩

/-- The first call is admitted and leaves; the second one finds a start in flight. -/
def crowded : Facility :=
  ((((Facility.new.enqueue 1 first.need).enqueue 2 second.need).look oneStart blind false
    first).leave first).look
    oneStart blind false second

theorem crowded_within_and_awake :
    Steps oneStart blind .new crowded ∧ crowded.queue = [second] ∧ declaredHost crowded.reserved ≤ 8 ∧
      ∃ why, admissibleLocked oneStart blind crowded second = .waits why := by
  have hsteps : Steps oneStart blind .new crowded :=
    ((((Relation.ReflTransGen.single (.enqueue 1 first.need)).tail (.enqueue 2 second.need)).tail
      (.look false first (by decide) (by decide))).tail (.leave first (by decide))).tail
      (.look false second (by decide) (by decide))
  have h := admission_within_and_awake oneStart blind hsteps
  have hqueue : crowded.queue = [second] := by decide
  refine ⟨hsteps, hqueue, h.1 (by decide), h.2.2 ?_ second (by rw [hqueue]; exact mem_singleton_self _)⟩
  intro w hw
  rw [mem_singleton.mp hw]
  exact ⟨0, by decide, by decide⟩

end AiiOs.PluginFacility.Admission
