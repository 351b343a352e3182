import AiiOs.Lib.Procs
import AiiOs.Subagents.Queue

/-! internal/app, workqueue_adapter.go: `RunWork` runs one leg of a sub-agent, or settles
what an interrupted one left behind. A step is one statement of the store, one read of it,
or the start or the end of the child's loop. The prompt, the metrics and the notices are
left out. -/

namespace AiiOs.Subagents
open Lib Store.Queue

/-! ### A leg -/

structure Config where
  subagentMaxLegs : Nat
  continuation : Bool
  subagentWallSeconds : Int

def Config.maxLegs (c : Config) : Nat := if c.subagentMaxLegs < 1 then 1 else c.subagentMaxLegs

structure LoopResult where
  exhaustedBudget : Bool
  exhaustedCallBudget : Bool
  continuedAtTokenBudget : Bool
  continuedAtPressure : Bool
  continuedAtCap : Bool
  spoken : List Char
  err : Option (List Char)
  header : List Char

inductive CapReason
  | noCap
  | declared
  | context
  | tokenFence
  deriving DecidableEq, Repr

def capReasonOf (r : LoopResult) : CapReason :=
  if r.continuedAtTokenBudget then .tokenFence
  else if r.continuedAtPressure then .context
  else if r.continuedAtCap then .declared
  else .noCap

def CapReason.how : CapReason → List Char
  | .context => charsOf "because its context filled"
  | .tokenFence => charsOf "because it spent its token budget"
  | _ => charsOf "at its declared tool budget"

def LoopResult.unfinished (r : LoopResult) : Bool :=
  r.exhaustedBudget || r.exhaustedCallBudget || capReasonOf r ≠ .noCap

def LoopResult.bounded (r : LoopResult) : Bool := r.err.isNone && r.unfinished

/-- `^(served|partial|unserved):\s*\S.*`. -/
def hasOutcomeVerdict (s : List Char) : Bool :=
  [charsOf "served:", charsOf "partial:", charsOf "unserved:"].any fun v =>
    v.isPrefixOf s && (s.drop v.length).any fun c => !([' ', '\t', '\n', '\r', Char.ofNat 12].contains c)

def firstOutcome (c : Config) (leg : Nat) (r : LoopResult) : List Char :=
  let body := if r.spoken = [] then charsOf "(completed with no spoken outcome)" else r.spoken
  match r.err with
  | some e => charsOf "unserved: FAILED: " ++ e
  | none =>
    if r.exhaustedBudget then
      ("partial: UNFINISHED — the sub-agent reached its round ceiling before it was done. What follows " ++
        "is real but partial; decide whether to spawn a continuation.\n\n").toList ++ body
    else if r.exhaustedCallBudget then
      ("partial: UNFINISHED — the sub-agent reached its tool-call budget before it was done; calls in " ++
        "its final batch were not executed. What follows is real but partial; decide whether to spawn a " ++
        "continuation.\n\n").toList ++ body
    else if capReasonOf r ≠ .noCap then
      let why :=
        if !c.continuation then charsOf "sub-agent continuation is off"
        else if leg < c.maxLegs then charsOf "its next leg could not be enqueued"
        else charsOf "this was leg " ++ decimal leg ++ charsOf " of " ++ decimal c.maxLegs ++
          charsOf ", the last"
      "partial: UNFINISHED — the sub-agent stopped ".toList ++ (capReasonOf r).how ++
        charsOf " before it was done, and nothing continues it: " ++ why ++
        charsOf ". What follows is real but partial; decide whether to spawn a continuation.\n\n" ++ body
    else if r.spoken = [] then charsOf "unserved: " ++ body
    else if hasOutcomeVerdict r.spoken then r.spoken
    else charsOf "partial: ended without a stated verdict; its final message follows.\n\n" ++ r.spoken

def trimBracket (header : List Char) : List Char :=
  if header.getLast? = some ']' then header.dropLast else header

def outcomeOf (c : Config) (leg : Nat) (r : LoopResult) : List Char :=
  let header :=
    if 1 < leg then
      trimBracket r.header ++ charsOf " legs=" ++ decimal leg ++ '/' :: decimal c.maxLegs ++ [']']
    else r.header
  let outcome :=
    if 1 < leg ∧ r.bounded ∧ capReasonOf r = .noCap then
      firstOutcome c leg r ++ charsOf "\nThis was leg " ++ decimal leg ++ charsOf " of " ++
        decimal c.maxLegs ++ charsOf "; the chain is exhausted."
    else firstOutcome c leg r
  outcome.takeWhile (· ≠ '\n') ++ '\n' :: header ++ outcome.dropWhile (· ≠ '\n')

/-! ### An execution -/

inductive RunError
  | payload (e : RequestError)
  | coverage
  | startedLeg
  | lookForLeg
  | beforeStart
  | panicked
  deriving DecidableEq, Repr

inductive Phase
  /-- before the session is read -/
  | checking
  /-- the session is delivered: before the coverage of its legs is written -/
  | closing
  /-- before the started mark is read -/
  | starting
  /-- the leg was started: before the item of the next leg is looked for -/
  | recovering
  /-- before the interruption is delivered -/
  | interrupting
  /-- before the prompt is there -/
  | preparing
  /-- before a failure is delivered that came before the start -/
  | failing (cause : List Char)
  /-- before the started mark is written -/
  | marking
  /-- before the child's loop starts -/
  | entering
  /-- in the child's loop -/
  | looping
  /-- the loop is over: before the session is read again -/
  | looped (r : LoopResult)
  /-- before the next leg is queued -/
  | enqueueing (r : LoopResult)
  /-- before the outcome is delivered -/
  | delivering (r : LoopResult)
  /-- before the item is completed, or failed -/
  | ending (err : Option RunError)

structure Run where
  item : WorkItem
  config : Config
  phase : Phase

def Run.session (p : Run) : List Char := p.item.payload.sessionID

def Run.leg (p : Run) : Nat := p.item.payload.legNo

def Run.wallSeconds (p : Run) : Int :=
  if p.item.payload.wallSeconds ≤ 0 then p.config.subagentWallSeconds else p.item.payload.wallSeconds

def Run.nextItem (p : Run) (id : List Char) : WorkItem :=
  newItem id { p.item.payload with leg := p.leg + 1, wallSeconds := p.wallSeconds }
    (legKey p.session (p.leg + 1))
    ((p.wallSeconds + 60) * 1000)

inductive Event
  /-- the loop of the leg was started -/
  | started (leg : Nat)
  /-- the leg queued the next one -/
  | handed (leg : Nat)
  | wrote (result : List Char) (evidence : Option Evidence)
  deriving DecidableEq, Repr

/-- The marks of the executor, and those of executions that have settled their item and have the
mark still to remove. -/
structure Marks where
  ids : List (List Char)
  leaving : List (List Char)

/-- The mark of an execution that goes on. -/
def Marks.Stays (m : Marks) (id : List Char) : Prop := id ∈ m.ids ∧ id ∉ m.leaving

def Marks.remove (m : Marks) (id : List Char) : Marks := ⟨m.ids.filter (· ≠ id), m.leaving.filter (· ≠ id)⟩

structure World where
  store : Store
  running : Marks
  live : Bool
  log : List Char → List Event

/-- What the child passes to `work deliver`. -/
structure Delivery where
  result : List Char
  evidence : Option Evidence
  readback : List Char

structure Input where
  now : Int
  ending : Ending
  readFails : Bool
  panics : Bool
  cause : Option (List Char)
  errText : List Char
  record : List Char
  child : Option Delivery
  result : LoopResult
  newID : List Char

namespace World

section
variable (w : World) (session : List Char)

def note (e : Event) : World :=
  { w with log := Function.update w.log session (w.log session ++ [e]) }

def setSessions (w : World) (sessions : Sessions) :
    World := { w with store := { w.store with sessions := sessions } }

def setItems (w : World) (items : Items) : World := { w with store := { w.store with items := items } }

def exec (w : World) (i : Input) (op : World → Except StoreError World) : Except StoreError Unit × World :=
  i.ending.of .failed w ((op w).map fun w' => ((), w'))

def deliver (session result : List Char) (evidence : Option Evidence) (readback : List Char) (w : World) :
    Except StoreError World :=
  (deliverWorkSession session result evidence readback w.store.sessions).map fun sessions =>
    (w.setSessions sessions).note session (.wrote result evidence)

def markStarted (session : List Char) (leg : Nat) (w : World) : Except StoreError World :=
  (startWorkSessionLeg session leg w.store.sessions).map w.setSessions

def enqueueNext (p : Run) (i : Input) (w : World) : Except StoreError World :=
  (enqueueWork (p.nextItem i.newID) w.store.items).map fun items =>
    (w.setItems items).note p.session (.handed p.leg)

def deliveredResult : Option (List Char) :=
  match w.store.sessions.find? session with
  | none => none
  | some r => if r.delivered && !isPreStartFailure r.result then some r.result else none

def sessionDelivered : Bool := (w.deliveredResult session).isSome

end

end World

/-- `resolveDeliveryEvidence` in a worker's seat, none when it is refused. -/
def workerEvidence : Option Evidence → Option Evidence
  | none => some .workerReportOnly
  | some e => if evidenceVerifiedTier e then none else some e

/-- `work deliver` of the child. -/
def childDelivers (p : Run) (i : Input) (d : Delivery) (w : World) : World :=
  if hasOutcomeVerdict d.result && !isPreStartFailure d.result then
    match workerEvidence d.evidence with
    | none => w
    | some e => (w.exec i (World.deliver p.session d.result (some e) d.readback)).2
  else w

def interruption (p : Run) (record : List Char) : List Char :=
  interruptedLeg (" — leg ".toList ++ decimal p.leg ++ charsOf " of " ++ decimal p.config.maxLegs ++
    charsOf " had begun, and it is not run again: its calls may already have acted. What the session " ++
    charsOf "recorded:" ++
    (if record = [] then charsOf "\n(the session recorded nothing of its progress)" else record))

def notStarted (p : Run) (cause : List Char) : List Char × Evidence :=
  if 1 < p.leg then
    ("partial: UNFINISHED — leg ".toList ++ decimal p.leg ++ charsOf " of " ++ decimal p.config.maxLegs ++
      charsOf " could not start (" ++ cause ++
      charsOf "), and nothing continues it. The legs before it ran, and their calls may already have acted.",
      .partialOrMixed)
  else (preStartFailure cause, .notRun)

def Run.lastAttempt (p : Run) : Bool := p.item.maxRetries ≤ p.item.retryCount + 1

section
variable (i : Input) (w : World) (p : Run)

def stepPhase : World × Phase :=
  match p.phase with
  | .checking =>
    match p.item.payload.validate with
    | .error e => (w, .ending (some (.payload e)))
    | .ok () => if w.sessionDelivered p.session then (w, .closing) else (w, .starting)
  | .closing => (w, .ending (if i.ending = .done then none else some .coverage))
  | .starting =>
    if i.readFails then (w, .ending (some .startedLeg))
    else if p.leg ≤ workSessionStartedLeg p.session w.store.sessions then (w, .recovering)
    else (w, .preparing)
  | .recovering =>
    if i.readFails then (w, .ending (some .lookForLeg))
    else if hasWorkItem (legKey p.session (p.leg + 1)) w.store.items then (w, .ending none)
    else (w, .interrupting)
  | .interrupting =>
    ((w.exec i (World.deliver p.session (interruption p i.record) (some .externalUnknown) [])).2,
      .ending none)
  | .preparing =>
    match i.cause with
    | some cause => (w, .failing cause)
    | none => (w, .marking)
  | .failing cause =>
    if 1 < p.leg ∧ p.lastAttempt = false then (w, .ending (some .beforeStart))
    else
      ((w.exec i (World.deliver p.session (notStarted p cause).1 (some (notStarted p cause).2) [])).2,
        .ending (some .beforeStart))
  | .marking =>
    match w.exec i (World.markStarted p.session p.leg) with
    | (.error _, w') => (w', .failing i.errText)
    | (.ok _, w') => (w', .entering)
  | .entering => (w.note p.session (.started p.leg), .looping)
  | .looping =>
    match i.child with
    | some d => (childDelivers p i d w, .looping)
    | none => (w, .looped i.result)
  | .looped r =>
    if w.sessionDelivered p.session then (w, .ending none)
    else if r.bounded ∧ p.config.continuation ∧ p.leg < p.config.maxLegs then (w, .enqueueing r)
    else (w, .delivering r)
  | .enqueueing r =>
    -- an `INSERT` that fails leaves no row
    if i.ending = .done then
      match World.enqueueNext p i w with
      | .error _ => (w, .delivering r)
      | .ok w' => (w', .ending none)
    else (w, .delivering r)
  | .delivering r =>
    ((w.exec i (World.deliver p.session (outcomeOf p.config p.leg r) (some .workerReportOnly)
      [])).2, .ending none)
  | .ending e => (w, .ending e)

/-- The end of `runOne`. The mark goes in a later step. -/
def finish (err : Option RunError) : World :=
  let items := match err with
    | none => completeWork p.item.id w.store.items
    | some _ => failWork p.item.id i.now w.store.items
  let w := if i.ending = .failed then w else w.setItems items
  { w with running := { w.running with leaving := p.item.id :: w.running.leaving } }

def stepRun : World × Option Run :=
  match p.phase with
  | .ending err => (finish i w p err, none)
  | _ =>
    if i.panics then (w, some { p with phase := .ending (some .panicked) })
    else ((stepPhase i w p).1, some { p with phase := (stepPhase i w p).2 })

end

/-! ### The system -/

def World.sweepOrphans (w : World) : World :=
  { w with
    store := { w.store with sessions := sweepOrphanWorkSessions w.store.items w.store.sessions }
    log := fun id =>
      if (w.store.sessions.find? id).any (orphaned w.store.items) then
        w.log id ++ [.wrote interruptedByRestart (some .externalUnknown)]
      else w.log id }

/-- What happens beside the executions: a sub-agent is spawned, with an ID made of the
letters of a UUID; the executor sweeps the leases of what does not run, and removes the mark of
an execution that has ended; a claim gets lost; the boot closes orphans. -/
inductive Env : World → World → Prop
  | spawn {w st} (itemID : List Char) (payload : SubagentRequest) (leaseMs : Int) (hleg : payload.leg = 0)
    (hid : '#' ∉ payload.sessionID)
    (h : enqueueWorkWithSession (newItem itemID payload payload.sessionID leaseMs) payload.sessionID
      w.store = .ok st) : Env w { w with store := st }
  | sweep {w} (now : Int) : Env w (w.setItems (sweepExpiredLeases now w.store.items w.running.ids))
  | forget {w} (id : List Char) (h : id ∈ w.running.leaving) :
    Env w { w with running := w.running.remove id }
  | claimLost {w it items} (id : List Char) (now : Int)
    (h : claimWork id now w.store.items = some (it, items)) : Env w (w.setItems items)
  | boot {w} (ending : Ending) (hboot : w.live = false) :
    Env w { (if ending = .failed then w else w.sweepOrphans) with live := true }

/-- No item is claimed while its last execution has the mark still to remove: two executions of one
item do not overlap. -/
def claims (w w' : World) (p : Run) : Prop :=
  w.live ∧ p.phase = .checking ∧ p.item.id ∉ w.running.leaving ∧
    ∃ now items, claimWork p.item.id now w.store.items = some (p.item, items) ∧
      w' = { w.setItems items with running := { w.running with ids := p.item.id :: w.running.ids } }

def rules : Procs.Rules World Run where
  start := claims
  act w p w' o := ∃ i, stepRun i w p = (w', o)
  env := Env
  stop w w' := w' = { w with running := ⟨[], []⟩, live := false }

def World.start : World := ⟨⟨Table.empty, Table.empty⟩, ⟨[], []⟩, false, fun _ => []⟩

end AiiOs.Subagents
