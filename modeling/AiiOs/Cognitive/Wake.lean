import AiiOs.Lib.Bytes
import AiiOs.Lib.Table
import AiiOs.Lib.Text
import Mathlib.Data.List.Sort

/-! internal/cognitive, time.go, over internal/store, alarms.go: the durable alarms, the
marks of those handed to their owners, and the moment the clock next wakes. -/

namespace AiiOs.Cognitive
open Lib List

/-! ### The alarms of the store -/

inductive Clock
  | wall
  | life
  deriving DecidableEq, Repr

/-- A row of `alarms`; a deadline is in milliseconds and never negative. -/
structure Alarm where
  alarmID : Bytes
  ownerName : Bytes
  clock : Clock
  deadline : Nat
  repeatEvery : Option Nat
  payload : Option Bytes
  deriving DecidableEq, Repr

abbrev Alarms := Table Alarm.alarmID

/-- `ORDER BY deadline ASC, alarm_id ASC`. -/
def dueLe (a b : Alarm) : Prop :=
  a.deadline < b.deadline ∨ (a.deadline = b.deadline ∧ bytesLe a.alarmID b.alarmID)

instance : DecidableRel dueLe := fun a b => by unfold dueLe; infer_instance

variable {a b : Alarm} {n : Nat}

theorem deadline_le_of_dueLe (h : dueLe a b) : a.deadline ≤ b.deadline := by
  rcases h with h | h <;> omega

instance : Std.Total dueLe where
  total a b := by
    unfold dueLe
    have hid := bytesLe_total a.alarmID b.alarmID
    rcases Nat.lt_trichotomy a.deadline b.deadline with h | h | h
    · exact .inl (.inl h)
    · rcases hid with hid | hid
      · exact .inl (.inr ⟨h, hid⟩)
      · exact .inr (.inr ⟨h.symm, hid⟩)
    · exact .inr (.inl h)

instance : IsTrans Alarm dueLe where
  trans a b c hab hbc := by
    rcases hab with hab | ⟨hab, hid⟩
    · have hle := deadline_le_of_dueLe hbc
      exact .inl (by omega)
    · rcases hbc with hbc | ⟨hbc, hid'⟩
      · exact .inl (by omega)
      · exact .inr ⟨by omega, bytesLe_trans hid hid'⟩

structure Store where
  alarms : Alarms
  failing : Bool

def due (alarms : Alarms) (clock : Clock) (nowOrLess : Nat) : List Alarm :=
  (alarms.rows.filter fun a => a.clock = clock && a.deadline ≤ nowOrLess).insertionSort dueLe

def Store.dueAlarms (s : Store) (clock : Clock) (nowOrLess limit : Nat) : Option (List Alarm) :=
  if s.failing then none else some ((due s.alarms clock nowOrLess).take limit)

theorem mem_due {alarms : Alarms} {clock : Clock} :
    a ∈ due alarms clock n ↔ a ∈ alarms.rows ∧ a.clock = clock ∧ a.deadline ≤ n := by
  simp [due]

theorem due_sorted (alarms : Alarms) (clock : Clock) (n : Nat) :
    (due alarms clock n).Pairwise dueLe := pairwise_insertionSort dueLe _

/-! ### Readings of the clock -/

/-- Nanoseconds on the wall, and the monotonic reading of a time that came from
`time.Now`. -/
structure Time where
  wall : Int
  mono : Option Int
  deriving DecidableEq, Repr

/-- Two monotonic readings are compared by themselves, any other two times on the wall. -/
def Time.before (t u : Time) : Bool := match t.mono with
  | none => t.wall < u.wall
  | some a =>
    match u.mono with
    | none => t.wall < u.wall
    | some b => a < b

def Time.add (t : Time) (d : Int) : Time := ⟨t.wall + d, t.mono.map (· + d)⟩

def unixMilli (ms : Nat) : Time := ⟨(ms : Int) * 1000000, none⟩

@[simp] theorem unixMilli_before (ms : Nat) (u : Time) :
    (unixMilli ms).before u = decide ((unixMilli ms).wall < u.wall) := rfl

/-! ### The next wake -/

structure Ephemeral where
  id : Bytes
  next : Time
  interval : Int
  deriving DecidableEq, Repr

/-- The timers in memory, the earliest first, and when each alarm that awaits dispatch was
handed on, in the order the map is walked. -/
structure TIME where
  heap : List Ephemeral
  pendingDispatch : List (Bytes × Time)
  deriving DecidableEq, Repr

def pendingDispatchRetryAfter : Int := 30 * 1000000000

def retryAt (mark : Bytes × Time) : Time := mark.2.add pendingDispatchRetryAfter

section
variable (now : Time)

/-- A mark that is still waited on; the others are deleted by the walk that meets them. -/
def live (mark : Bytes × Time) : Bool := now.before (retryAt mark)

def sooner (best : Option Time) (t : Time) : Option Time := match best with
  | none => some t
  | some b => if t.before b then some t else some b

def pending (t : TIME) : List (Bytes × Time) := t.pendingDispatch.filter (live now)

/-- The earliest of the first timer and the retries, no durable alarm looked at. -/
def soonest (includeEphemerals : Bool) (now : Time) (t : TIME) : Option Time :=
  (pending now t).foldl (fun best mark => sooner best (retryAt mark))
    (if includeEphemerals then t.heap.head?.map Ephemeral.next else none)

/-- With `inSafe` the alarms are those SAFE mode lets through, and `safeNextWake` is the
answer for them. -/
def nextWakeIncludingEphemerals (includeEphemerals : Bool) (now : Time) (inSafe : Bool)
    (safeNextWake : Option Nat) (s : Store) (t : TIME) : TIME × Option Time :=
  let marks := pending now t
  let best := soonest includeEphemerals now t
  let wake := if inSafe then
      match safeNextWake with
      | some at_ => sooner best (unixMilli at_)
      | none => best
    else
      match s.dueAlarms .wall (2 ^ 62) 16 with
      | none => best
      | some alarms =>
        match alarms.find? fun a => a.alarmID ∉ marks.map Prod.fst with
        | some a => sooner best (unixMilli a.deadline)
        | none => best
  ({ t with pendingDispatch := marks }, wake)

def nextWake (inSafe : Bool) (safeNextWake : Option Nat) (s : Store) (t : TIME) :
    TIME × Option Time := nextWakeIncludingEphemerals true now inSafe safeNextWake s t

/-! ### No later than a deadline -/

def Awaiting (t : TIME) (a : Alarm) : Prop := a.alarmID ∈ (pending now t).map Prod.fst

instance (now : Time) (t : TIME) (a : Alarm) : Decidable (Awaiting now t a) :=
  inferInstanceAs (Decidable (_ ∈ _))

def WakesBy (wake : Option Time) (a : Alarm) : Prop :=
  ∃ w ∈ wake, w.wall ≤ (unixMilli a.deadline).wall

instance (wake : Option Time) (a : Alarm) : Decidable (WakesBy wake a) :=
  inferInstanceAs (Decidable (∃ w ∈ wake, _))

/-- The wake answers every alarm of the wall clock that nobody was handed. -/
def Answers (t : TIME) (s : Store) (wake : Option Time) : Prop :=
  ∀ a ∈ s.alarms.rows, a.clock = .wall → ¬ Awaiting now t a → WakesBy wake a

instance (now : Time) (t : TIME) (s : Store) (wake : Option Time) :
    Decidable (Answers now t s wake) :=
  inferInstanceAs (Decidable (∀ a ∈ s.alarms.rows, _))

theorem WakesBy.of_deadline_le {wake : Option Time} (h : WakesBy wake a)
    (hle : a.deadline ≤ b.deadline) : WakesBy wake b := by
  obtain ⟨w, hw, hwall⟩ := h
  refine ⟨w, hw, ?_⟩
  simp only [unixMilli] at *
  omega

theorem wakesBy_sooner (best : Option Time) (a : Alarm) : WakesBy (sooner best (unixMilli a.deadline)) a := by
  rcases best with _ | b
  · exact ⟨_, rfl, Int.le_refl _⟩
  · simp only [sooner]
    split_ifs with h
    · exact ⟨_, rfl, Int.le_refl _⟩
    · exact ⟨b, rfl, by simpa using h⟩

theorem deadline_le_of_find?_page {s : Store} {limit : Nat} {page : List Alarm} {now : Time}
    {t : TIME} {first : Alarm} (hpage : s.dueAlarms .wall n limit = some page)
    (hfirst : page.find? (fun a => a.alarmID ∉ (pending now t).map Prod.fst) = some first)
    (ha : a ∈ s.alarms.rows) (hwall : a.clock = .wall) (hfree : ¬ Awaiting now t a) :
    first.deadline ≤ a.deadline := by
  have htake : (due s.alarms .wall n).take limit = page := by
    unfold Store.dueAlarms at hpage
    split_ifs at hpage
    exact Option.some.inj hpage
  rw [← htake] at hfirst
  have hmem : first ∈ due s.alarms .wall n := mem_of_mem_take (mem_of_find?_eq_some hfirst)
  by_cases hn : a.deadline ≤ n
  · obtain ⟨before, rest, hsplit, hbefore⟩ := (find?_eq_some_iff_append.mp hfirst).2
    have hall : due s.alarms .wall n = before ++ first :: (rest ++ (due s.alarms .wall n).drop limit) := by
      rw [← cons_append, ← append_assoc, ← hsplit, take_append_drop]
    have hsorted := due_sorted s.alarms .wall n
    have hdue : a ∈ due s.alarms .wall n := mem_due.mpr ⟨ha, hwall, hn⟩
    rw [hall] at hsorted hdue
    rcases mem_append.mp hdue with hin | hin
    · have := hbefore a hin
      exact absurd (by simpa [Awaiting] using this) hfree
    · rcases mem_cons.mp hin with rfl | hin
      · exact le_refl _
      · have hpair := (pairwise_append.mp hsorted).2.1
        exact deadline_le_of_dueLe (rel_of_pairwise_cons hpair hin)
  · have := (mem_due.mp hmem).2.2
    omega

/-- Outside SAFE mode the next wake is no later than the deadline of any wall alarm that is
not awaiting dispatch, exactly where the page of sixteen shows such an alarm or a timer or
a retry already comes that early. -/
theorem nextWake_answers_iff (safeNextWake : Option Nat) (s : Store) (t : TIME) :
    Answers now t s (nextWake now false safeNextWake s t).2 ↔
      (∃ page, s.dueAlarms .wall (2 ^ 62) 16 = some page ∧ ∃ a ∈ page, ¬ Awaiting now t a) ∨
        Answers now t s (soonest true now t) := by
  unfold nextWake nextWakeIncludingEphemerals
  simp only [Bool.false_eq_true, if_false]
  cases hpage : s.dueAlarms .wall (2 ^ 62) 16 with
  | none => simp
  | some page =>
    simp only [Option.some.injEq, exists_eq_left']
    cases hfirst : page.find? fun a => a.alarmID ∉ (pending now t).map Prod.fst with
    | none =>
      -- Every alarm of the page awaits dispatch: the page adds nothing.
      have hnone : ¬ ∃ a ∈ page, ¬ Awaiting now t a := by
        rintro ⟨a, ha, hfree⟩
        have := List.find?_eq_none.mp hfirst a ha
        exact hfree (by simpa [Awaiting] using this)
      simp only [hnone, false_or]
    | some first =>
      have hfree : ¬ Awaiting now t first := by
        have := find?_some hfirst
        simpa [Awaiting] using this
      refine ⟨fun _ => .inl ⟨first, mem_of_find?_eq_some hfirst, hfree⟩, fun _ => ?_⟩
      intro a ha hwall hfree
      exact (wakesBy_sooner _ first).of_deadline_le
        (deadline_le_of_find?_page hpage hfirst ha hwall hfree)

end

/-! ### Sixteen alarms that await their owner -/

def wallAlarm (n : Nat) : Alarm := ⟨[n.toUInt8], bytesOf "owner", .wall, n, none, none⟩

def crowded : Store := ⟨⟨(List.range 17).map wallAlarm, by decide⟩, false⟩

def handedOn : TIME :=
  ⟨[], (List.range 16).map fun n : Nat => ([n.toUInt8], ⟨n * 1000000, some (n * 1000000)⟩)⟩

def afterSixteen : Time := ⟨15500000, some 15500000⟩

/-- The seventeenth alarm is due half a millisecond from now, and the clock sleeps until the
first retry, half a minute on. -/
theorem nextWake_sleeps_past_deadline :
    wallAlarm 16 ∈ crowded.alarms.rows ∧ ¬ Awaiting afterSixteen handedOn (wallAlarm 16) ∧
      (unixMilli (wallAlarm 16).deadline).wall = 16000000 ∧
      (nextWake afterSixteen false none crowded handedOn).2 = some ⟨30000000000, some 30000000000⟩ ∧
      ¬ Answers afterSixteen handedOn crowded
        (nextWake afterSixteen false none crowded handedOn).2 := by
  decide +kernel

end AiiOs.Cognitive
