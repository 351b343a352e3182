import AiiOs.Lib.Text
import AiiOs.Store.Queue
import Mathlib

/-! internal/store, workqueue.go and work.go: the queue of the legs of sub-agents, and the
work sessions they deliver to. Only items of the kind `subagent.run` are here. -/

namespace AiiOs.Subagents
open Lib Store.Queue

/-! ### Rows -/

/-- The payload of an item; `leg` is 0 in the first one. -/
structure SubagentRequest where
  goal : List Char
  depth : Int
  sessionID : List Char
  context : List Char
  wallSeconds : Int
  leg : Nat
  deriving DecidableEq, Repr

inductive RequestError
  | goalRequired
  | sessionRequired
  | depthNotPositive
  | contextUnknown
  deriving DecidableEq, Repr

def SubagentRequest.validate (r : SubagentRequest) : Except RequestError Unit :=
  if r.goal = [] then .error .goalRequired
  else if r.sessionID = [] then .error .sessionRequired
  else if r.depth < 1 then .error .depthNotPositive
  else if r.context ≠ charsOf "folded" ∧ r.context ≠ charsOf "full" then .error .contextUnknown
  else .ok ()

/-- The leg of the item, as `RunWork` counts them. -/
def SubagentRequest.legNo (r : SubagentRequest) : Nat := if r.leg < 1 then 1 else r.leg

abbrev WorkItem := Store.Queue.WorkItem SubagentRequest

abbrev Items := Store.Queue.Items SubagentRequest

inductive Evidence
  | notRun
  | rejectedNoEffect
  | completedLocally
  | partialOrMixed
  | externalUnknown
  | workerReportOnly
  | locallyVerified
  | hostReceipted
  deriving DecidableEq, Repr

def evidenceVerifiedTier (e : Evidence) : Bool := e = .locallyVerified || e = .hostReceipted

structure WorkSession where
  id : List Char
  delivered : Bool
  result : List Char
  evidence : Option Evidence
  startedLeg : Nat
  deriving DecidableEq, Repr

abbrev Sessions := Table WorkSession.id

structure Store where
  sessions : Sessions
  items : Items

inductive StoreError
  | noSuchSession
  | readbackRequired
  | notServed
  | alreadyDelivered
  | constraint
  | failed
  deriving DecidableEq, Repr

/-! ### The queue -/

/-- The key of the item of a later leg, `"%s#%d"`. -/
def legKey (sessionID : List Char) (leg : Nat) : List Char := sessionID ++ '#' :: decimal leg

section
variable (id : List Char)

def newItem (payload : SubagentRequest) (dedupKey : List Char) (leaseMs : Int) : WorkItem :=
  Store.Queue.newItem id (charsOf "subagent.run") payload dedupKey 0 leaseMs 0

def enqueueWork (it : WorkItem) (items : Items) : Except StoreError Items :=
  match Store.Queue.enqueueWork it items with
  | none => .error .constraint
  | some items' => .ok items'

def hasWorkItem (dedupKey : List Char) (items : Items) : Bool :=
  items.rows.any fun r => r.dedupKey = dedupKey

/-- The item `id` is claimed. Which one it is, is a matter of priority, age and limits. -/
def claimWork (now : Int) (items : Items) : Option (WorkItem × Items) :=
  match items.find? id with
  | none => none
  | some it =>
    if it.state = .pending ∧ it.scheduled ≤ now then
      some (it.claim now, Store.Queue.claimWork id now items)
    else none

/-! ### Work sessions -/

def interruptedByRestart : List Char := charsOf "FAILED: interrupted by a runtime restart before delivery"

def preStartMarker : List Char := charsOf "unserved: failed before start:"

def preStartFailure (cause : List Char) : List Char := preStartMarker ++ ' ' :: cause

def isPreStartFailure (result : List Char) : Bool := preStartMarker.isPrefixOf result

def interruptedLeg (detail : List Char) : List Char := charsOf "unserved: " ++ interruptedByRestart ++ detail

/-- `result LIKE marker || '%'`: ASCII letters without their case. -/
def likeMarker (result : List Char) : Bool :=
  (preStartMarker.map Char.toLower).isPrefixOf (result.map Char.toLower)

def startWorkSessionLeg (leg : Nat) (sessions : Sessions) : Except StoreError Sessions :=
  if sessions.affected (fun r => r.id = id) ≠ 1 then .error .noSuchSession
  else
    .ok (sessions.update (fun r => r.id = id) (fun r => { r with startedLeg := max r.startedLeg leg })
      fun _ => rfl)

def workSessionStartedLeg (sessions : Sessions) : Nat := match sessions.find? id with
  | none => 0
  | some r => r.startedLeg

/-- The SQL of `queuedChild` for the live items. -/
def liveChild (items : Items) : Bool :=
  items.rows.any fun w =>
    w.live && (w.dedupKey = id || (id ++ ['#'] ≤ w.dedupKey && w.dedupKey < id ++ ['$']))

def orphaned (items : Items) (r : WorkSession) : Bool := !r.delivered && !liveChild r.id items

def sweepOrphanWorkSessions (items : Items) (sessions : Sessions) : Sessions :=
  sessions.update (orphaned items) (fun r => { r with
    delivered := true, result := interruptedByRestart, evidence := some .externalUnknown }) fun _ => rfl

/-- `unicode.IsSpace`. -/
def isSpace (c : Char) : Bool :=
  [0x09, 0x0A, 0x0B, 0x0C, 0x0D, 0x20, 0x85, 0xA0, 0x1680, 0x2028, 0x2029, 0x202F, 0x205F,
    0x3000].contains c.toNat || (0x2000 ≤ c.toNat && c.toNat ≤ 0x200A)

/-- A row that `DeliverWorkSession` may write. -/
def deliverable (r : WorkSession) : Bool := r.id = id && (!r.delivered || likeMarker r.result)

end

def deliverWorkSession (id result : List Char) (evidence : Option Evidence) (readback : List Char)
    (sessions : Sessions) : Except StoreError Sessions :=
  if evidence.any evidenceVerifiedTier ∧ readback.all isSpace then .error .readbackRequired
  else if evidence.any evidenceVerifiedTier ∧ (charsOf "served:").isPrefixOf result =
    false then .error .notServed
  else if sessions.affected (deliverable id) ≠ 1 then .error .alreadyDelivered
  else
    .ok (sessions.update (deliverable id)
      (fun r => { r with delivered := true, result := result, evidence := evidence }) fun _ => rfl)

/-- A sub-agent is spawned: its session and the item of its first leg. -/
def enqueueWorkWithSession (it : WorkItem) (sessionID : List Char) (st : Store) :
    Except StoreError Store := do
  let items ← enqueueWork it st.items
  match st.sessions.insert? ⟨sessionID, false, [], none, 0⟩ with
  | none => .error .constraint
  | some sessions => .ok ⟨sessions, items⟩

end AiiOs.Subagents
