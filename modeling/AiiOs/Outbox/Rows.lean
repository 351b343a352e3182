import AiiOs.Lib.Bytes
import AiiOs.Lib.Table
import AiiOs.Lib.Text
import Mathlib.Data.List.Sort

/-! internal/store, outbox.go: the messages that wait to be sent, the claim on one and the
writes that settle it. Milliseconds are integers. -/

namespace AiiOs.Outbox
open Lib Table

inductive Role
  | operator
  | peer
  deriving DecidableEq, Repr

inductive Effect
  | none
  | performed
  | unknown
  deriving DecidableEq, Repr

structure OutboxMessage where
  id : Bytes
  toRole : Role
  toIdentity : Bytes
  content : Bytes
  delivered : Bool
  deliveredVia : Bytes
  createdMs : Int
  requestedChannel : Bytes
  recipientError : Bytes
  attempts : Nat
  lastError : Bytes
  lastAttemptMs : Int
  parked : Bool
  effect : Effect
  dispatchedMs : Option Int
  deriving DecidableEq, Repr

abbrev Rows := Table OutboxMessage.id

/-! ### Which messages may be taken -/

def inFlight (m : OutboxMessage) : Bool := m.lastAttemptMs < m.dispatchedMs.getD 0

def walkable (m : OutboxMessage) : Bool := !m.delivered && !m.parked && !inFlight m

def pageMayCarry (m : OutboxMessage) : Bool :=
  m.toRole = .operator && !m.delivered && m.effect ≠ .unknown && !inFlight m

/-- `ORDER BY created_ms ASC, id ASC`. -/
def inOrder (ms : List OutboxMessage) : List OutboxMessage :=
  ms.insertionSort fun a b => a.createdMs < b.createdMs ∨ (a.createdMs = b.createdMs ∧ bytesLe a.id b.id)

def pendingPeerDeliveries (t : Rows) : List OutboxMessage :=
  inOrder (t.rows.filter fun m => m.toRole = .peer && walkable m)

/-- The notices that may leave the dashboard: those a restore brought back stay. -/
def pendingNotices (after : Int) (t : Rows) : List OutboxMessage :=
  inOrder (t.rows.filter fun m => m.toRole = .operator && walkable m && after < m.createdMs)

def pageNotices (t : Rows) : List OutboxMessage := inOrder (t.rows.filter pageMayCarry)

/-! ### Writes -/

inductive StoreError
  | claimRefused
  | claimSuperseded
  | noRows
  | failed
  deriving DecidableEq, Repr

/-- How a write ends: as it should, without effect, or with its answer lost. -/
inductive Fate
  | done
  | failed
  | lost
  deriving DecidableEq, Repr

def Fate.of {α : Type} (fate : Fate) (t : Rows) : Except StoreError (α × Rows) → Except StoreError α × Rows
  | .error e => (.error e, t)
  | .ok (a, t') =>
    match fate with
    | .done => (.ok a, t')
    | .failed => (.error .failed, t)
    | .lost => (.error .failed, t')

structure Dispatch where
  messageID : Bytes
  atMs : Int
  before : Option Int
  deriving DecidableEq, Repr

section
variable (d : Dispatch)

def Dispatch.stands (m : OutboxMessage) : Bool :=
  m.id = d.messageID && m.dispatchedMs = some d.atMs && inFlight m

def claim (messageID : Bytes) (may : OutboxMessage → Bool) (now : Int) (t : Rows) :
    Except StoreError (Dispatch × Rows) :=
  match t.find? messageID with
  | none => .error .claimRefused
  | some m =>
    let atMs := max now (m.lastAttemptMs + 1)
    let row := fun r : OutboxMessage =>
      r.id = messageID && may r && r.lastAttemptMs = m.lastAttemptMs && r.dispatchedMs = m.dispatchedMs
    if t.affected row ≠ 1 then .error .claimRefused
    else .ok (⟨messageID, atMs, m.dispatchedMs⟩,
      t.update row (fun r => { r with dispatchedMs := some atMs }) fun _ => rfl)

def claimDispatch (messageID : Bytes) :
    Int → Rows → Except StoreError (Dispatch × Rows) := claim messageID walkable

def claimForPage (messageID : Bytes) :
    Int → Rows → Except StoreError (Dispatch × Rows) := claim messageID pageMayCarry

def releaseDispatch (t : Rows) : Except StoreError (Unit × Rows) :=
  if t.affected d.stands ≠ 1 then .error .claimSuperseded
  else .ok ((), t.update d.stands (fun r => { r with dispatchedMs := d.before }) fun _ => rfl)

def settled (now : Int) (m : OutboxMessage) : OutboxMessage :=
  { m with attempts := m.attempts + 1, lastAttemptMs := max now (m.dispatchedMs.getD 0) }

def settleDispatch (set : OutboxMessage → OutboxMessage) (hset : ∀ m, (set m).id = m.id) (now : Int)
    (t : Rows) : Except StoreError (Unit × Rows) :=
  if t.affected d.stands ≠ 1 then .error .claimSuperseded
  else .ok ((), t.update d.stands (fun r => settled now (set r)) fun r => hset r)

def recordDeliveryAttempt (answer : Bytes) (permanent : Bool) (parkAfter : Nat) (now : Int) (t : Rows) :
    Except StoreError ((Nat × Bool) × Rows) :=
  match t.find? d.messageID with
  | none => .error .noRows
  | some m => do
    let attempts := m.attempts + 1
    let parked := m.parked || permanent || decide (parkAfter ≤ attempts)
    let (_, t) ← settleDispatch d (fun r => { r with lastError := answer, parked := parked })
      (fun _ => rfl) now t
    .ok ((attempts, parked), t)

def markEffectUnknown (via answer : Bytes) : Int → Rows → Except StoreError (Unit × Rows) :=
  settleDispatch d
    (fun r => { r with lastError := answer, parked := true, effect := .unknown, deliveredVia := via })
    fun _ => rfl

def markDispatchDelivered (via : Bytes) : Int → Rows → Except StoreError (Unit × Rows) :=
  settleDispatch d
    (fun r => { r with delivered := true, deliveredVia := via, lastError := [], effect := .performed })
    fun _ => rfl

end

/-- At a boot: what was in flight is parked as unknown. -/
def settleInterruptedDispatches (answer : Bytes) (now : Int) (t : Rows) : Rows :=
  t.update (fun r => !r.delivered && inFlight r)
    (fun r => settled now { r with lastError := answer, parked := true, effect := .unknown }) fun _ => rfl

/-- At the boot behind a restore: so is every message to a peer that waits. -/
def settleRestore (answer : Bytes) (now : Int) (t : Rows) : Rows :=
  t.update (fun r => r.toRole = .peer && !r.delivered && !r.parked)
    (fun r => settled now { r with lastError := answer, parked := true, effect := .unknown }) fun _ => rfl

def newMessage (id : Bytes) (toRole : Role) (toIdentity content : Bytes) (createdMs : Int) :
    OutboxMessage where
  id := id
  toRole := toRole
  toIdentity := toIdentity
  content := content
  delivered := false
  deliveredVia := []
  createdMs := createdMs
  requestedChannel := []
  recipientError := []
  attempts := 0
  lastError := []
  lastAttemptMs := 0
  parked := false
  effect := .none
  dispatchedMs := none

/-- `UPDATE outbox SET to_identity=?,requested_channel=?,recipient_error=''` for a held
message. -/
def repairHeldMessage (id recipient channel : Bytes) (t : Rows) : Rows := t.update
    (fun r => r.id = id && r.toRole = .peer && r.recipientError ≠ [] && !r.delivered && !r.parked &&
      r.attempts = 0 &&
      r.effect = .none)
    (fun r => { r with toIdentity := recipient, requestedChannel := channel, recipientError := [] })
    fun _ => rfl

/-! ### What the writes do to the rows -/

section
variable {t t' : Rows} {d : Dispatch} {now : Int} {id : Bytes} {may : OutboxMessage → Bool}

def claimed (now : Int) (m : OutboxMessage) :
    OutboxMessage := { m with dispatchedMs := some (max now (m.lastAttemptMs + 1)) }

variable {f : OutboxMessage → OutboxMessage} {m : OutboxMessage}

theorem claim_eq_ok (h : claim id may now t = .ok (d, t')) :
    ∃ m, t.find? id = some m ∧ may m ∧ d = ⟨id, max now (m.lastAttemptMs + 1), m.dispatchedMs⟩ ∧
      ∀ k, t'.find? k = if k = id then some (claimed now m) else t.find? k := by
  rw [claim] at h
  cases hm : t.find? id with
  | none =>
    rw [hm] at h
    cases h
  | some m =>
    rw [hm] at h
    simp only at h
    split_ifs at h with hone
    rw [not_not] at hone
    obtain ⟨m', hm', hrow⟩ := (affected_eq_one (k := id) fun r hr => by simp at hr; exact hr.1.1.1).mp hone
    rw [hm] at hm'
    cases hm'
    cases h
    simp only [Bool.and_eq_true] at hrow
    refine ⟨m, rfl, hrow.1.1.2, rfl, fun k => ?_⟩
    refine find?_update_one _ (fun r hr => ?_) hm ?_ k
    · simp only [Bool.and_eq_true, decide_eq_true_eq] at hr
      exact hr.1.1.1
    · simp [hrow]

theorem stands_iff : d.stands m ↔ m.id = d.messageID ∧ m.dispatchedMs = some d.atMs ∧ inFlight m := by
  simp [Dispatch.stands, and_assoc]

theorem update_stands (hf : ∀ r, (f r).id = r.id) (h : ¬t.affected d.stands ≠ 1) :
    ∃ m, t.find? d.messageID = some m ∧ d.stands m ∧
      ∀ k, (t.update d.stands f hf).find? k = if k = d.messageID then some (f m) else t.find? k := by
  have hkey : ∀ r, d.stands r → r.id = d.messageID := fun r hr => (stands_iff.mp hr).1
  obtain ⟨m, hm, hstands⟩ := (affected_eq_one hkey).mp (not_not.mp h)
  exact ⟨m, hm, hstands, find?_update_one hf hkey hm hstands⟩

theorem releaseDispatch_eq_ok (h : releaseDispatch d t = .ok ((), t')) :
    ∃ m, t.find? d.messageID = some m ∧ d.stands m ∧
      ∀ k, t'.find? k = if k = d.messageID then some { m with dispatchedMs := d.before } else t.find? k := by
  rw [releaseDispatch] at h
  split_ifs at h with hone
  cases h
  exact update_stands _ hone

theorem settleDispatch_eq_ok {set : OutboxMessage → OutboxMessage} {hset : ∀ m, (set m).id = m.id}
    (h : settleDispatch d set hset now t = .ok ((), t')) :
    ∃ m, t.find? d.messageID = some m ∧ d.stands m ∧
      ∀ k, t'.find? k = if k = d.messageID then some (settled now (set m)) else t.find? k := by
  rw [settleDispatch] at h
  split_ifs at h with hone
  cases h
  exact update_stands _ hone

end

end AiiOs.Outbox
