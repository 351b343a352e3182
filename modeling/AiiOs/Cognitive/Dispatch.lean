import AiiOs.Cognitive.Wake
import AiiOs.Lib.Window

/-! internal/cognitive, time.go: `EvaluateAll` and what an owner's answer does with the row
of its alarm, over the due query and the two conditional writes of internal/store, alarms.go.
The clock reads the same throughout, SAFE mode is off and there is no enqueuer. -/

namespace AiiOs.Cognitive
open Lib List Table

/-! ### One alarm -/

structure AlarmResult where
  accepted : Bool
  nextDeadline : Option Nat
  deriving DecidableEq, Repr

def declinedRetryAfterMS : Clock → Nat
  | .life => 1
  | .wall => 30000

def updateAlarmDeadlineCAS (alarms : Alarms) (alarmID : Bytes)
    (expectedDeadline newDeadline : Nat) : Alarms :=
  alarms.update (fun a => a.alarmID = alarmID && a.deadline = expectedDeadline)
    (fun a => { a with deadline := newDeadline }) fun _ => rfl

def deleteAlarmCAS (alarms : Alarms) (alarmID : Bytes) (expectedDeadline : Nat) : Alarms :=
  alarms.keep fun a => !(a.alarmID = alarmID && a.deadline = expectedDeadline)

def applyCAS (alarms : Alarms) (alarm : Alarm) (newDeadline : Nat) : Alarms :=
  updateAlarmDeadlineCAS alarms alarm.alarmID alarm.deadline newDeadline

def applyTransitions (currentClock : Nat) (alarms : Alarms) (alarm : Alarm)
    (result : AlarmResult) : Alarms :=
  match result.accepted, alarm.repeatEvery, result.nextDeadline with
  | true, some repeatEvery, _ => applyCAS alarms alarm (currentClock + repeatEvery)
  | true, none, some nextDeadline => applyCAS alarms alarm nextDeadline
  | true, none, none => deleteAlarmCAS alarms alarm.alarmID alarm.deadline
  | false, _, some nextDeadline => applyCAS alarms alarm nextDeadline
  | false, some repeatEvery, none => applyCAS alarms alarm (currentClock + repeatEvery)
  | false, none, none =>
    if alarm.deadline ≤ currentClock then
      applyCAS alarms alarm (currentClock + declinedRetryAfterMS alarm.clock)
    else alarms

def deadlineAfter (currentClock : Nat) (alarm : Alarm) (result : AlarmResult) : Option Nat :=
  match result.accepted, alarm.repeatEvery, result.nextDeadline with
  | true, some repeatEvery, _ => some (currentClock + repeatEvery)
  | true, none, some nextDeadline => some nextDeadline
  | true, none, none => none
  | false, _, some nextDeadline => some nextDeadline
  | false, some repeatEvery, none => some (currentClock + repeatEvery)
  | false, none, none =>
    some (if alarm.deadline ≤ currentClock then
      currentClock + declinedRetryAfterMS alarm.clock else alarm.deadline)

section Row
variable {alarms : Alarms} {alarm b : Alarm}

section
variable (h : alarm ∈ alarms.rows)
include h

theorem cas_iff (hb : b ∈ alarms.rows) :
    (decide (b.alarmID = alarm.alarmID) && decide (b.deadline = alarm.deadline)) ↔ b = alarm := by
  simp only [Bool.and_eq_true, decide_eq_true_eq]
  exact ⟨fun hid => eq_of_key_eq hb h hid.1, fun he => he ▸ ⟨rfl, rfl⟩⟩

theorem id_ne_iff (hb : b ∈ alarms.rows) : b.alarmID ≠ alarm.alarmID ↔ b ≠ alarm :=
  not_congr ⟨eq_of_key_eq hb h, fun he => he ▸ rfl⟩

theorem mem_applyCAS {d : Nat} : b ∈ (applyCAS alarms alarm d).rows ↔
      (b ∈ alarms.rows ∧ b.alarmID ≠ alarm.alarmID) ∨ b = { alarm with deadline := d } := by
  rw [applyCAS, updateAlarmDeadlineCAS, mem_update]
  constructor
  · rintro ⟨c, hc, rfl⟩
    by_cases he : c = alarm
    · rw [if_pos ((cas_iff h hc).mpr he), he]
      exact .inr rfl
    · rw [if_neg fun hp => he ((cas_iff h hc).mp hp)]
      exact .inl ⟨hc, (id_ne_iff h hc).mpr he⟩
  · rintro (⟨hb, hid⟩ | rfl)
    · exact ⟨b, hb, if_neg fun hp => (id_ne_iff h hb).mp hid ((cas_iff h hb).mp hp)⟩
    · exact ⟨alarm, h, if_pos ((cas_iff h h).mpr rfl)⟩

theorem mem_applyTransitions (now : Nat) (result : AlarmResult) :
    b ∈ (applyTransitions now alarms alarm result).rows ↔
      (b ∈ alarms.rows ∧ b.alarmID ≠ alarm.alarmID) ∨
        ∃ d ∈ deadlineAfter now alarm result, b = { alarm with deadline := d } := by
  have hdelete : b ∈ (deleteAlarmCAS alarms alarm.alarmID alarm.deadline).rows ↔
      b ∈ alarms.rows ∧ b.alarmID ≠ alarm.alarmID := by
    rw [deleteAlarmCAS, Table.keep, mem_filter, Bool.not_eq_true', Bool.eq_false_iff]
    exact and_congr_right fun hb => (not_congr (cas_iff h hb)).trans (id_ne_iff h hb).symm
  have hsame : b ∈ alarms.rows ↔ (b ∈ alarms.rows ∧ b.alarmID ≠ alarm.alarmID) ∨
      b = { alarm with deadline := alarm.deadline } := by
    constructor
    · intro hb
      by_cases he : b = alarm
      · exact .inr he
      · exact .inl ⟨hb, (id_ne_iff h hb).mpr he⟩
    · rintro (hb | rfl)
      · exact hb.1
      · exact h
  obtain ⟨id, owner, clock, deadline, _ | every, payload⟩ := alarm <;>
    rcases result with ⟨_ | _, _ | next⟩ <;>
    simp only [applyTransitions, deadlineAfter, mem_applyCAS h, hdelete, Option.mem_def,
      Option.some.injEq, exists_eq_left', reduceCtorEq, false_and, exists_false, or_false]
  · by_cases hdue : deadline ≤ now
    · rw [if_pos hdue, if_pos hdue, mem_applyCAS h]
    · rw [if_neg hdue, if_neg hdue]
      exact hsame

end

end Row

/-! ### A pass -/

/-- The registered owners, and the clocks as they read throughout. -/
structure Readings where
  owners : Bytes → Bool
  now : Clock → Nat

structure Passes where
  store : Store
  /-- The alarms whose owners were invoked. -/
  fired : List Bytes

section Pass
variable (t : Readings) (answer : Alarm → AlarmResult)

def dispatchAlarm (p : Passes) (alarm : Alarm) : Passes := if t.owners alarm.ownerName then
    ⟨{ p.store with
        alarms := applyTransitions (t.now alarm.clock) p.store.alarms alarm (answer alarm) },
      p.fired ++ [alarm.alarmID]⟩
  else p

def dispatchPass (p : Passes) (alarms : List Alarm) : Passes :=
  alarms.foldl (dispatchAlarm t answer) p

/-- The half of `EvaluateAll` one clock has. -/
def evaluateClock (p : Passes) (clock : Clock) : Passes :=
  match p.store.dueAlarms clock (t.now clock) 100 with
  | none => p
  | some due => dispatchPass t answer p due

def evaluateAll (p : Passes) : Passes := let p := evaluateClock t answer p .wall
  evaluateClock t answer p .life

end Pass

def evaluateTimes (t : Readings) (answers : Nat → Alarm → AlarmResult) (alarms : Alarms) :
    Nat → Passes
  | 0 => ⟨⟨alarms, false⟩, []⟩
  | k + 1 => evaluateAll t (answers k) (evaluateTimes t answers alarms k)

section Pass
variable {t : Readings} {answer : Alarm → AlarmResult} {p : Passes} {b : Alarm}

theorem fired_dispatchPass (page : List Alarm) : (dispatchPass t answer p page).fired =
      p.fired ++ (page.filter (t.owners ·.ownerName)).map Alarm.alarmID := by
  induction page generalizing p with
  | nil => exact (append_nil _).symm
  | cons a page ih =>
    have hfold : dispatchPass t answer p (a :: page) =
      dispatchPass t answer (dispatchAlarm t answer p a) page := rfl
    rw [hfold, ih]
    by_cases h : t.owners a.ownerName
    · simp [dispatchAlarm, h]
    · simp [dispatchAlarm, h]

theorem failing_dispatchPass (page : List Alarm) :
    (dispatchPass t answer p page).store.failing = p.store.failing := by
  induction page generalizing p with
  | nil => rfl
  | cons a page ih =>
    refine (ih (p := dispatchAlarm t answer p a)).trans ?_
    unfold dispatchAlarm
    split <;> rfl

theorem mem_dispatchPass {page : List Alarm} (hpage : ∀ a ∈ page, a ∈ p.store.alarms.rows)
    (hids : (page.map Alarm.alarmID).Nodup) :
    b ∈ (dispatchPass t answer p page).store.alarms.rows ↔ (b ∈ p.store.alarms.rows ∧
        ∀ a ∈ page, t.owners a.ownerName → b.alarmID ≠ a.alarmID) ∨
      ∃ a ∈ page, t.owners a.ownerName ∧
        ∃ d ∈ deadlineAfter (t.now a.clock) a (answer a), b = { a with deadline := d } := by
  -- on the page; an alarm dispatched is not met again, as the ids differ
  induction page generalizing p with
  | nil => simp [dispatchPass]
  | cons a page ih =>
    rw [map_cons, nodup_cons] at hids
    have hother : ∀ c ∈ page, c.alarmID ≠ a.alarmID := fun c hc he => hids.1 (he ▸ List.mem_map_of_mem hc)
    have hfold : dispatchPass t answer p (a :: page) =
      dispatchPass t answer (dispatchAlarm t answer p a) page := rfl
    rw [hfold]
    by_cases hreg : t.owners a.ownerName
    · have hstep : ∀ c, c ∈ (dispatchAlarm t answer p a).store.alarms.rows ↔
          (c ∈ p.store.alarms.rows ∧ c.alarmID ≠ a.alarmID) ∨
          ∃ d ∈ deadlineAfter (t.now a.clock) a (answer a), c = { a with deadline := d } := by
        intro c
        rw [dispatchAlarm, if_pos hreg]
        exact mem_applyTransitions (hpage a (mem_cons_self ..)) _ _
      rw [ih (fun c hc => (hstep c).mpr (.inl ⟨hpage c (mem_cons_of_mem _ hc), hother c hc⟩)) hids.2, hstep]
      simp only [mem_cons, forall_eq_or_imp, exists_eq_or_imp, hreg, true_and, forall_const]
      constructor
      · rintro (⟨⟨hb, hne⟩ | hb, hrest⟩ | hb)
        · exact .inl ⟨hb, hne, hrest⟩
        · exact .inr (.inl hb)
        · exact .inr (.inr hb)
      · rintro (⟨hb, hne, hrest⟩ | ⟨d, hd, rfl⟩ | hb)
        · exact .inl ⟨.inl ⟨hb, hne⟩, hrest⟩
        · exact .inl ⟨.inr ⟨d, hd, rfl⟩, fun c hc _ => (hother c hc).symm⟩
        · exact .inr hb
    · rw [dispatchAlarm, if_neg hreg, ih (fun c hc => hpage c (mem_cons_of_mem _ hc)) hids.2]
      simp [hreg]

end Pass

/-! ### The due alarms after a pass -/

section Due
variable {alarms : Alarms} {clock : Clock} {n : Nat}

theorem nodup_due : (due alarms clock n).Nodup :=
  (perm_insertionSort dueLe _).nodup_iff.mpr (alarms.nodup.of_map.filter _)

theorem due_eq {line : List Alarm} (hsorted : line.Pairwise dueLe) (hnodup : line.Nodup)
    (hmem : ∀ a, a ∈ line ↔ a ∈ alarms.rows ∧ a.clock = clock ∧ a.deadline ≤ n) :
    due alarms clock n = line := by
  refine List.Perm.eq_of_pairwise ?_ (due_sorted ..) hsorted
    ((perm_ext_iff_of_nodup nodup_due hnodup).mpr fun a => mem_due.trans (hmem a).symm)
  intro a b ha hb hab hba
  refine eq_of_key_eq (mem_due.mp ha).1 ((hmem b).mp hb).1 ?_
  have hle := deadline_le_of_dueLe hab
  have hge := deadline_le_of_dueLe hba
  rcases hab with hab | ⟨-, hab⟩
  · omega
  · rcases hba with hba | ⟨-, hba⟩
    · omega
    · exact bytesLe_antisymm hab hba

variable {t : Readings} {answer : Alarm → AlarmResult} {p : Passes}

/-- Which due alarms a pass leaves as they are: those nobody owns, and those whose owners
answer with the deadline they had. The others leave the due ones. -/
structure Sorts (t : Readings) (stays : Alarm → Bool)
    (answer : Alarm → AlarmResult) : Prop where
  unowned : ∀ a, ¬ t.owners a.ownerName → stays a
  keeps : ∀ a, t.owners a.ownerName → stays a →
    deadlineAfter (t.now a.clock) a (answer a) = some a.deadline
  clears : ∀ a, ¬ stays a → a.deadline ≤ t.now a.clock →
    ∀ d ∈ deadlineAfter (t.now a.clock) a (answer a), t.now a.clock < d

variable {stays : Alarm → Bool}

section
variable (hok : p.store.failing = false)
include hok

theorem evaluateClock_eq : evaluateClock t answer p clock = dispatchPass t answer p
        ((due p.store.alarms clock (t.now clock)).take 100) := by
  simp [evaluateClock, Store.dueAlarms, hok]

theorem failing_evaluateClock : (evaluateClock t answer p clock).store.failing = false := by
  rw [evaluateClock_eq hok, failing_dispatchPass, hok]

theorem mem_evaluateClock {b : Alarm} : b ∈ (evaluateClock t answer p clock).store.alarms.rows ↔
      (b ∈ p.store.alarms.rows ∧ ∀ a ∈ (due p.store.alarms clock (t.now clock)).take 100,
          t.owners a.ownerName → b.alarmID ≠ a.alarmID) ∨
      ∃ a ∈ (due p.store.alarms clock (t.now clock)).take 100, t.owners a.ownerName ∧
        ∃ d ∈ deadlineAfter (t.now a.clock) a (answer a), b = { a with deadline := d } := by
  rw [evaluateClock_eq hok]
  refine mem_dispatchPass (fun a ha => (mem_due.mp (mem_of_mem_take ha)).1)
    (((take_sublist ..).map Alarm.alarmID).nodup (.map_on ?_ nodup_due))
  intro a ha b hb
  exact eq_of_key_eq (mem_due.mp ha).1 (mem_due.mp hb).1

theorem due_evaluateClock_of_ne {other : Clock} (hne : other ≠ clock) :
    due (evaluateClock t answer p clock).store.alarms other n = due p.store.alarms other n := by
  refine due_eq (due_sorted ..) nodup_due fun b => ?_
  rw [mem_due, mem_evaluateClock hok]
  constructor
  · rintro ⟨hb, hclock, hn⟩
    refine ⟨.inl ⟨hb, fun a ha _ he => ?_⟩, hclock, hn⟩
    have hdue := mem_due.mp (mem_of_mem_take ha)
    have hab := eq_of_key_eq hb hdue.1 he
    exact hne (hclock.symm.trans (hab ▸ hdue.2.1))
  · rintro ⟨⟨hb, -⟩ | ⟨a, ha, -, d, -, rfl⟩, hclock, hn⟩
    · exact ⟨hb, hclock, hn⟩
    · exact absurd (hclock.symm.trans (mem_due.mp (mem_of_mem_take ha)).2.1) hne

theorem due_evaluateClock (hsorts : Sorts t stays answer) :
    due (evaluateClock t answer p clock).store.alarms clock
      (t.now clock) = leave stays 100 (due p.store.alarms clock (t.now clock)) := by
  have hsplit := take_append_drop 100 (due p.store.alarms clock (t.now clock))
  have hsub : (leave stays 100 (due p.store.alarms clock (t.now clock))).Sublist
      (due p.store.alarms clock (t.now clock)) := by
    conv_rhs => rw [← hsplit]
    exact filter_sublist.append (.refl _)
  have hapart : ∀ b ∈ (due p.store.alarms clock (t.now clock)).take 100,
      b ∉ (due p.store.alarms clock (t.now clock)).drop 100 := by
    have hnodup : (due p.store.alarms clock (t.now clock)).Nodup := nodup_due
    rw [← hsplit] at hnodup
    exact fun b hb hb' => disjoint_of_nodup_append hnodup hb hb'
  -- both sides are sorted and without repetition, so that membership decides
  refine due_eq ((due_sorted ..).sublist hsub) (nodup_due.sublist hsub) fun b => ?_
  rw [mem_evaluateClock hok]
  constructor
  · intro hb
    obtain ⟨hrow, hclock, hn⟩ := mem_due.mp (hsub.subset hb)
    refine ⟨?_, hclock, hn⟩
    rcases mem_append.mp hb with hb | hb
    · obtain ⟨hpage, hstays⟩ := mem_filter.mp hb
      by_cases hreg : t.owners b.ownerName
      · exact .inr ⟨b, hpage, hreg, _, hsorts.keeps b hreg hstays, rfl⟩
      · refine .inl ⟨hrow, fun a ha hreg' he => hreg ?_⟩
        rwa [eq_of_key_eq hrow (mem_due.mp (mem_of_mem_take ha)).1 he]
    · refine .inl ⟨hrow, fun a ha _ he => ?_⟩
      have hab := eq_of_key_eq hrow (mem_due.mp (mem_of_mem_take ha)).1 he
      exact hapart a ha (hab ▸ hb)
  · rintro ⟨⟨hrow, hfree⟩ | ⟨a, ha, hreg, d, hd, rfl⟩, hclock, hn⟩
    · have hdue : b ∈ due p.store.alarms clock (t.now clock) := mem_due.mpr ⟨hrow, hclock, hn⟩
      rw [← hsplit, mem_append] at hdue
      refine mem_append.mpr (hdue.imp_left fun hin => mem_filter.mpr ⟨hin, ?_⟩)
      exact hsorts.unowned b fun hreg => hfree b hin hreg rfl
    · by_cases hstays : stays a
      · obtain rfl : a.deadline = d := Option.some_inj.mp ((hsorts.keeps a hreg hstays).symm.trans hd)
        exact mem_append_left _ (mem_filter.mpr ⟨ha, hstays⟩)
      · obtain ⟨-, hac, hle⟩ := mem_due.mp (mem_of_mem_take ha)
        subst hac
        exact absurd hn (Nat.not_le_of_lt (hsorts.clears a hstays hle d hd))

theorem due_evaluateAll (hsorts : Sorts t stays answer) (clock : Clock) :
    due (evaluateAll t answer p).store.alarms clock (t.now clock)
      = leave stays 100 (due p.store.alarms clock (t.now clock)) := by
  unfold evaluateAll
  cases clock with
  | wall =>
    rw [due_evaluateClock_of_ne (failing_evaluateClock hok) (by decide), due_evaluateClock hok hsorts]
  | life =>
    rw [due_evaluateClock (failing_evaluateClock hok) hsorts, due_evaluateClock_of_ne hok (by decide)]

theorem mem_fired_evaluateAll {id : Bytes} :
    id ∈ (evaluateAll t answer p).fired ↔ id ∈ p.fired ∨
      ∃ clock, ∃ a ∈ (due p.store.alarms clock (t.now clock)).take 100, t.owners a.ownerName ∧
      a.alarmID = id := by
  rw [evaluateAll, evaluateClock_eq (failing_evaluateClock hok),
    due_evaluateClock_of_ne hok (by decide), fired_dispatchPass, evaluateClock_eq hok,
    fired_dispatchPass]
  simp only [mem_append, List.mem_map, mem_filter, and_assoc]
  constructor
  · rintro ((h | h) | h)
    · exact .inl h
    · exact .inr ⟨.wall, h⟩
    · exact .inr ⟨.life, h⟩
  · rintro (h | ⟨_ | _, h⟩)
    · exact .inl (.inl h)
    · exact .inl (.inr h)
    · exact .inr h

end

end Due

/-! ### Repeated passes -/

section Runs
variable {t : Readings} {answers : Nat → Alarm → AlarmResult} {alarms : Alarms}
  {stays : Alarm → Bool} {a : Alarm}

theorem failing_evaluateTimes (k : Nat) : (evaluateTimes t answers alarms k).store.failing = false := by
  induction k with
  | zero => rfl
  | succ k ih => exact failing_evaluateClock (failing_evaluateClock ih)

theorem due_evaluateTimes (hsorts : ∀ k, Sorts t stays (answers k)) (clock : Clock) (k : Nat) :
    due (evaluateTimes t answers alarms k).store.alarms clock
      (t.now clock) = (leave stays 100)^[k] (due alarms clock (t.now clock)) := by
  induction k with
  | zero => rfl
  | succ k ih =>
    rw [evaluateTimes, due_evaluateAll (failing_evaluateTimes k) (hsorts k), ih]
    exact (Function.iterate_succ_apply' ..).symm

theorem mem_fired_evaluateTimes {id : Bytes} (k : Nat) :
    id ∈ (evaluateTimes t answers alarms k).fired ↔ ∃ j < k, ∃ clock,
        ∃ a ∈ (due (evaluateTimes t answers alarms j).store.alarms clock
          (t.now clock)).take 100, t.owners a.ownerName ∧ a.alarmID = id := by
  induction k with
  | zero => simp [evaluateTimes]
  | succ k ih =>
    rw [evaluateTimes, mem_fired_evaluateAll (failing_evaluateTimes k), ih]
    constructor
    · rintro (⟨j, hj, h⟩ | h)
      · exact ⟨j, Nat.lt_succ_of_lt hj, h⟩
      · exact ⟨k, Nat.lt_succ_self k, h⟩
    · rintro ⟨j, hj, h⟩
      rcases Nat.lt_succ_iff_lt_or_eq.mp hj with hj | rfl
      · exact .inl ⟨j, hj, h⟩
      · exact .inr h

def ahead (t : Readings) (alarms : Alarms) (a : Alarm) : List Alarm :=
  (due alarms a.clock (t.now a.clock)).takeWhile (· ≠ a)

def Fired (t : Readings) (answers : Nat → Alarm → AlarmResult) (alarms : Alarms) (a : Alarm) : Prop :=
  ∃ k, a.alarmID ∈ (evaluateTimes t answers alarms k).fired

def Owed (t : Readings) (alarms : Alarms) (a : Alarm) : Prop :=
  a ∈ alarms.rows ∧ a.deadline ≤ t.now a.clock ∧ t.owners a.ownerName

theorem due_eq_ahead_append (h : Owed t alarms a) : a ∉ ahead t alarms a ∧ ∃ rest,
      due alarms a.clock (t.now a.clock) = ahead t alarms a ++ a :: rest := by
  have hdue : a ∈ due alarms a.clock (t.now a.clock) := mem_due.mpr ⟨h.1, rfl, h.2.1⟩
  obtain ⟨before, rest, hsplit, hnot⟩ := eq_append_cons_of_mem hdue
  have hbefore : ahead t alarms a = before := by
    have hne : ∀ b ∈ before, decide (b ≠ a) := fun b hb => decide_eq_true fun he => hnot (he ▸ hb)
    rw [ahead, hsplit, takeWhile_append_of_pos hne, takeWhile_cons_of_neg (by simp), append_nil]
  exact ⟨hbefore ▸ hnot, rest, hbefore ▸ hsplit⟩

theorem fired_iff (hsorts : ∀ k, Sorts t stays (answers k)) (h : Owed t alarms a) :
    Fired t answers alarms a ↔ ((ahead t alarms a).filter stays).length < 100 := by
  obtain ⟨hnot, rest, hsplit⟩ := due_eq_ahead_append h
  rw [← @exists_mem_take_iff _ _ _ _ rest _ hnot, ← hsplit]
  constructor
  · rintro ⟨k, hk⟩
    obtain ⟨j, -, clock, b, hb, -, hid⟩ := (mem_fired_evaluateTimes k).mp hk
    rw [due_evaluateTimes hsorts] at hb
    have hdue := mem_due.mp (mem_of_mem_iterate_leave (mem_of_mem_take hb))
    obtain rfl := eq_of_key_eq hdue.1 h.1 hid
    obtain rfl := hdue.2.1
    exact ⟨j, hb⟩
  · rintro ⟨k, hk⟩
    rw [← due_evaluateTimes hsorts] at hk
    exact ⟨k + 1, (mem_fired_evaluateTimes _).mpr ⟨k, Nat.lt_succ_self k, _, a, hk, h.2.2, rfl⟩⟩

theorem sorts_of_clears {answer : Alarm → AlarmResult}
    (h : ∀ a, a.deadline ≤ t.now a.clock → ∀ d ∈ deadlineAfter (t.now a.clock) a (answer a),
      t.now a.clock < d) :
    Sorts t (fun a => !t.owners a.ownerName) answer where
  unowned a hnot := by simpa using hnot
  keeps a hreg hstays := by simp [hreg] at hstays
  clears a _ := h a

theorem sorts_putBack : Sorts t (fun _ => true) fun a => ⟨false, some a.deadline⟩ where
  unowned _ _ := rfl
  keeps a _ _ := by cases hrep : a.repeatEvery <;> simp [deadlineAfter]
  clears _ hstays := absurd rfl hstays

end Runs

def Clears (t : Readings) (answers : Nat → Alarm → AlarmResult) : Prop :=
  ∀ k a, a.deadline ≤ t.now a.clock →
    ∀ d ∈ deadlineAfter (t.now a.clock) a (answers k a), t.now a.clock < d

/-- Repeated passes reach every due alarm that has an owner, whatever the owners answer so
long as an answer takes its alarm out of the due ones, exactly where fewer than a hundred due
alarms without an owner stand before each; and whatever they answer at all, exactly where
fewer than a hundred due alarms of any kind do. -/
theorem evaluateAll_reaches_iff (t : Readings) (alarms : Alarms) :
    ((∀ answers, Clears t answers → ∀ a, Owed t alarms a → Fired t answers alarms a) ↔
      ∀ a, Owed t alarms a →
        ((ahead t alarms a).filter fun b => !t.owners b.ownerName).length < 100) ∧
    ((∀ answers a, Owed t alarms a → Fired t answers alarms a) ↔
      ∀ a, Owed t alarms a → (ahead t alarms a).length < 100) := by
  constructor
  · constructor
    · intro h a ha
      have hclears : Clears t fun _ a => ⟨false, some (t.now a.clock + 1)⟩ := by
        intro _ a _ d hd
        cases hrep : a.repeatEvery <;> simp [deadlineAfter] at hd <;> omega
      exact (fired_iff (fun k => sorts_of_clears (hclears k)) ha).mp (h _ hclears a ha)
    · intro h answers hclears a ha
      exact (fired_iff (fun k => sorts_of_clears (hclears k)) ha).mpr (h a ha)
  · constructor
    · intro h a ha
      simpa using (fired_iff (fun _ => sorts_putBack) ha).mp (h _ a ha)
    · -- The first page shows the alarm, whatever the answers do afterwards.
      intro h answers a ha
      obtain ⟨-, rest, hsplit⟩ := due_eq_ahead_append ha
      refine ⟨1, (mem_fired_evaluateTimes 1).mpr ⟨0, one_pos, a.clock, a, ?_, ha.2.2, rfl⟩⟩
      obtain ⟨j, hj⟩ : ∃ j, 100 = (ahead t alarms a).length + (j + 1) :=
        ⟨99 - (ahead t alarms a).length, by have := h a ha; omega⟩
      change a ∈ (due alarms a.clock (t.now a.clock)).take 100
      rw [hsplit, hj, take_length_add_append]
      exact mem_append_right _ (mem_cons_self ..)

/-! ### A hundred alarms nobody owns -/

def leftBehind : Alarms :=
  ⟨(List.range 100).map (fun n => { wallAlarm n with ownerName := bytesOf "gone" })
    ++ [wallAlarm 100], by decide +kernel⟩

def oneOwner : Readings := ⟨(· = bytesOf "owner"), fun _ => 100⟩

/-- The hundred and first alarm is due and its owner is there, and no pass gets to it. -/
theorem evaluateAll_never_reaches : Owed oneOwner leftBehind (wallAlarm 100) ∧
      ∀ answers, Clears oneOwner answers → ¬ Fired oneOwner answers leftBehind (wallAlarm 100) := by
  have howed : Owed oneOwner leftBehind (wallAlarm 100) := by
    unfold Owed
    decide +kernel
  refine ⟨howed, fun answers hclears hfired => ?_⟩
  have hfew := (fired_iff (fun k => sorts_of_clears (hclears k)) howed).mp hfired
  exact absurd hfew (by decide +kernel)

end AiiOs.Cognitive
