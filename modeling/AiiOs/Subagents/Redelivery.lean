import AiiOs.Subagents.Legs

/-! internal/store and internal/identity, work.go: what a delivered session keeps. A session is written by
`work start`, the mark of a leg, a delivery at the door or by the handler, and the sweep at boot. -/

namespace AiiOs.Subagents
open Lib Table

/-- The rows, with the column `evidence_readback` by session. -/
structure Rows where
  sessions : Sessions
  readback : List Char → List Char

inductive SessionOp
  | start (id : List Char)
  | update (id : List Char) -- of its state or its plan, which are left out
  | startLeg (id : List Char) (leg : Nat)
  | deliver (child : Bool) (id result : List Char) (evidence : Option Evidence) (readback : List Char)
  | handlerDelivers (id result : List Char) (evidence : Evidence)
  | sweep (items : Items)

/-- `resolveDeliveryEvidence` in the identity's own seat, none when it is refused. -/
def primaryEvidence (result readback : List Char) : Option Evidence → Option (Option Evidence)
  | none =>
    if (charsOf "served:").isPrefixOf result then some (some .completedLocally)
    else if (charsOf "partial:").isPrefixOf result then some (some .partialOrMixed)
    else some none
  | some e =>
    if evidenceVerifiedTier e ∧
      ((charsOf "served:").isPrefixOf result = false ∨ readback.all isSpace) then none
    else some (some e)

namespace Rows

def deliver (d : Rows) (id result : List Char) (evidence : Option Evidence) (readback : List Char) :
    Except StoreError Rows :=
  (deliverWorkSession id result evidence readback d.sessions).map fun sessions =>
    ⟨sessions, Function.update d.readback id readback⟩

def delivered (d : Rows) (id : List Char) : Bool := (d.sessions.find? id).any WorkSession.delivered

/-- An operation; one that is refused leaves the rows. The identity's own delivery is to a session that is
active, a child's to its own. -/
def step (d : Rows) : SessionOp → Rows
  | .start id => ((d.sessions.insert? ⟨id, false, [], none, 0⟩).map
      (⟨·, Function.update d.readback id []⟩)).getD d
  | .update _ => d
  | .startLeg id leg => ((startWorkSessionLeg id leg d.sessions).map (⟨·, d.readback⟩)).toOption.getD d
  | .deliver child id result evidence readback =>
    if hasOutcomeVerdict result && !isPreStartFailure result && (child || !d.delivered id) then
      match if child then (workerEvidence evidence).map some
        else primaryEvidence result readback evidence with
      | none => d
      | some e => (d.deliver id result e readback).toOption.getD d
    else d
  | .handlerDelivers id result evidence => (d.deliver id result (some evidence) []).toOption.getD d
  | .sweep items => ⟨sweepOrphanWorkSessions items d.sessions, d.readback⟩

def run (d : Rows) (ops : List SessionOp) : Rows := ops.foldl step d

/-- The result, the evidence and the readback of a delivered session. -/
def said (d : Rows) (id : List Char) : Option (List Char × Option Evidence × List Char) :=
  (d.sessions.find? id).bind fun r => if r.delivered then some (r.result, r.evidence, d.readback id) else none

end Rows

variable {d d' : Rows} {id id' result readback : List Char} {evidence : Option Evidence}
  {said : List Char × Option Evidence × List Char}

theorem said_eq_some : d.said id = some said ↔ ∃ r, d.sessions.find? id = some r ∧ r.delivered ∧
    (r.result, r.evidence, d.readback id) = said := by
  cases hfind : d.sessions.find? id <;> simp [Rows.said, hfind]

section
variable (h : d.said id = some said) (hlike : likeMarker said.1 = false)
include h hlike

theorem deliver_refused : ∃ e, d.deliver id result evidence readback = .error e := by
  obtain ⟨r, hr, hdel, rfl⟩ := said_eq_some.mp h
  cases hok : d.deliver id result evidence readback with
  | error e => exact ⟨e, rfl⟩
  | ok d' =>
    obtain ⟨sessions, hstore, -⟩ := map_eq_ok.mp hok
    obtain ⟨r', hr', hmay, -⟩ := deliverWorkSession_eq_ok hstore
    cases hr.symm.trans hr'
    simp [deliverable, hdel, hlike] at hmay

theorem said_deliver : ((d.deliver id' result evidence readback).toOption.getD d).said id = some said := by
  cases hok : d.deliver id' result evidence readback with
  | error e => exact h
  | ok d' =>
    have hne : id ≠ id' := by
      rintro rfl
      obtain ⟨e, he⟩ := deliver_refused h hlike
      cases he.symm.trans hok
    obtain ⟨sessions, hstore, rfl⟩ := map_eq_ok.mp hok
    obtain ⟨_, -, -, hfind⟩ := deliverWorkSession_eq_ok hstore
    obtain ⟨r, hr, hdel, hsaid⟩ := said_eq_some.mp h
    refine said_eq_some.mpr ⟨r, (hfind id).trans ((if_neg hne).trans hr), hdel, ?_⟩
    simpa [Except.toOption, Function.update_of_ne hne] using hsaid

theorem said_step (op : SessionOp) : (d.step op).said id = some said := by
  obtain ⟨r, hr, hdel, hsaid⟩ := said_eq_some.mp h
  cases op with
  | start id' =>
    cases hins : d.sessions.insert? ⟨id', false, [], none, 0⟩ with
    | none => simpa [Rows.step, hins] using h
    | some t =>
      obtain ⟨hnew, rfl⟩ := insert?_eq_some.mp hins
      have hne : id ≠ id' := by
        rintro rfl
        exact hnew (holds_iff.mpr ⟨r, find?_eq_some.mp hr⟩)
      refine said_eq_some.mpr ⟨r, ?_, hdel, ?_⟩ <;> simp [Rows.step, hins, find?_push, hne, hr, hsaid]
  | update id' => exact h
  | startLeg id' leg =>
    simp only [Rows.step, startWorkSessionLeg]
    split_ifs
    · exact h
    · refine said_eq_some.mpr ⟨if r.id = id' then { r with startedLeg := max r.startedLeg leg } else r, ?_⟩
      split_ifs with hid <;> simp [Except.map, Except.toOption, find?_update, hr, hid, hdel, hsaid]
  | deliver child id' result evidence readback =>
    simp only [Rows.step]
    split
    · split
      · exact h
      · exact said_deliver h hlike
    · exact h
  | handlerDelivers id' result evidence => exact said_deliver h hlike
  | sweep items =>
    refine said_eq_some.mpr ⟨r, ?_, hdel, hsaid⟩
    simp [Rows.step, sweepOrphanWorkSessions, find?_update, hr, orphaned, hdel]

theorem said_run (ops : List SessionOp) : (d.run ops).said id = some said := by
  induction ops generalizing d with
  | nil => exact h
  | cons op ops ih => exact ih (said_step h hlike op)

end

/-- A result stays for good, with every later delivery refused, exactly when the store's pattern, which is
blind to case, does not take it for a failure before the start. -/
theorem delivered_stays_iff (d : Rows) (id : List Char) (said : List Char × Option Evidence × List Char)
    (h : d.said id = some said) :
    (∀ ops, (d.run ops).said id = some said ∧
      ∀ result evidence readback, ∃ e, (d.run ops).deliver id result evidence readback = .error e) ↔
    likeMarker said.1 = false := by
  refine ⟨fun hall => ?_, fun hlike ops => ⟨said_run h hlike ops, fun _ _ _ => ?_⟩⟩
  · obtain ⟨e, he⟩ := (hall []).2 [] none []
    obtain ⟨r, hr, hdel, rfl⟩ := said_eq_some.mp h
    have hid (r : WorkSession) (hr : deliverable id r) : r.id = id := by simp_all [deliverable]
    by_contra hlike
    have hone := (affected_eq_one hid).mpr ⟨r, hr, by simp_all [deliverable, (find?_eq_some.mp hr).2]⟩
    simp [Rows.deliver, Rows.run, deliverWorkSession, hone, Except.map] at he
  · exact deliver_refused (said_run h hlike ops) hlike

def noRows : Rows := ⟨.empty, fun _ => []⟩

/-- The operations of a child that delivers these results one after the other. -/
def childSays (results : List (List Char)) : List SessionOp :=
  .start ['s'] :: results.map fun r => .deliver true ['s'] r none []

theorem delivered_stays_iff_served :
    (∀ ops, ((noRows.run (childSays [charsOf "served: done"])).run ops).said ['s'] =
      some (charsOf "served: done", some .workerReportOnly, []) ∧ ∀ result evidence readback, ∃ e,
        ((noRows.run (childSays [charsOf "served: done"])).run ops).deliver
        ['s'] result evidence readback = .error e) ↔
    likeMarker (charsOf "served: done") = false :=
  delivered_stays_iff _ _ _ rfl

/-- A child's word that begins like the runtime's record but for a letter's case is replaced by its next. -/
theorem failedBefore_replaced :
    isPreStartFailure (charsOf "unserved: Failed before start: no input") = false ∧
      (noRows.run (childSays [charsOf "unserved: Failed before start: no input"])).said ['s'] =
        some (charsOf "unserved: Failed before start: no input", some .workerReportOnly, []) ∧
      (noRows.run (childSays [charsOf "unserved: Failed before start: no input",
        charsOf "served: done"])).said ['s'] = some (charsOf "served: done", some .workerReportOnly, []) :=
  ⟨rfl, rfl, rfl⟩

end AiiOs.Subagents
