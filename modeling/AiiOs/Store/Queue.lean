import AiiOs.Lib.Table
import AiiOs.Lib.Utf8

/-! internal/store, workqueue.go: the statements on the rows of `work_queue`, whose payloads are
read by the handlers only. -/

namespace AiiOs.Store.Queue
open Lib Table

inductive ItemState
  | pending
  | claimed
  | done
  | failed
  deriving DecidableEq, Repr

structure WorkItem (π : Type) where
  id : List Char
  kind : List Char
  payload : π
  dedupKey : List Char
  state : ItemState
  scheduled : Int
  claimedAt : Int
  leaseMs : Int
  retryCount : Nat
  maxRetries : Nat
  deriving DecidableEq, Repr

abbrev Items (π : Type) := Table (@WorkItem.id π)

section
variable {π : Type} (id : List Char) (now : Int) (r : WorkItem π) (items : Items π)

def WorkItem.live : Bool := r.state = .pending || r.state = .claimed

/-- An item as it is inserted; without values of its own it has three tries and five minutes. -/
def newItem (kind : List Char) (payload : π) (dedupKey : List Char) (scheduled leaseMs : Int)
    (maxRetries : Nat) : WorkItem π where
  id := id
  kind := kind
  payload := payload
  dedupKey := dedupKey
  state := .pending
  scheduled := scheduled
  claimedAt := 0
  leaseMs := if leaseMs = 0 then 300000 else leaseMs
  retryCount := 0
  maxRetries := if maxRetries = 0 then 3 else maxRetries

/-- `enqueueWorkLocked`, none for an error. -/
def enqueueWork : Option (Items π) :=
  if r.kind = [] then none
  else if r.dedupKey ≠ [] ∧ items.rows.any fun x => x.kind = r.kind && x.dedupKey = r.dedupKey && x.live then
    some items
  else items.insert? r

def WorkItem.claim : WorkItem π := { r with state := .claimed, claimedAt := now }

def WorkItem.complete : WorkItem π := { r with state := .done }

def WorkItem.retried : WorkItem π := { r with
    state := if r.maxRetries ≤ r.retryCount + 1 then .failed else .pending
    retryCount := r.retryCount + 1
    claimedAt := 0
    scheduled := now + 1000 * 2 ^ min r.retryCount 6 }

theorem WorkItem.id_claim : (r.claim now).id = r.id := rfl

theorem WorkItem.id_complete : r.complete.id = r.id := rfl

theorem WorkItem.id_retried : (r.retried now).id = r.id := rfl

/-- The update of `ClaimWork`, behind its choice of an item. -/
def claimWork : Items π :=
  items.update (fun r => r.id = id && r.state = .pending) (WorkItem.claim now) (WorkItem.id_claim now)

def completeWork : Items π :=
  items.update (fun r => r.id = id && r.state = .claimed) WorkItem.complete WorkItem.id_complete

def failWork : Items π :=
  items.update (fun r => r.id = id && r.state = .claimed) (WorkItem.retried now) (WorkItem.id_retried now)

def sweepExpiredLeases (running : List (List Char)) : Items π :=
  items.update (fun r => r.state = .claimed && r.claimedAt + r.leaseMs < now && r.id ∉ running)
    (WorkItem.retried now) (WorkItem.id_retried now)

end

end AiiOs.Store.Queue
