import AiiOs.Lib.Procs
import AiiOs.Outbox.Rows

/-! internal/app, channels.go and notices.go: a delivery pass hands the messages that wait
to the adapters of their channels; an open page takes the operator's notices. Each step is
one statement of the store, or the start or the end of one call of an adapter. -/

namespace AiiOs.Outbox
open Lib

/-! ### What an adapter answers -/

inductive SendVerdict
  | unknown
  | delivered
  | notSent
  | neverHere
  deriving DecidableEq, Repr

structure Result where
  error : Bytes
  reasonCode : Bytes
  deriving DecidableEq, Repr

inductive ExecError
  | unknownTool (text : Bytes)
  | other (text : Bytes)
  deriving DecidableEq, Repr

def ExecError.text : ExecError → Bytes
  | .unknownTool t => t
  | .other t => t

/-- `broker.NoEffect`. -/
def noEffect (reason : Bytes) : Bool :=
  [bytesOf "CAPABILITY_NOT_IN_STATIC_ENVELOPE", bytesOf "POLICY_DENY", bytesOf "capability_policy_denied",
    bytesOf "OPERATION_NOT_ALLOWED_FOR_CAPABILITY", bytesOf "OPERATION_TARGET_INVALID",
    bytesOf "OPERATION_ARGUMENT_INVALID", bytesOf "NET_UNKNOWN_ARGUMENT",
    bytesOf "NET_TIMEOUT_LIMIT_EXCEEDED",
    bytesOf "NET_REQUEST_TOO_LARGE", bytesOf "NET_HEADER_INVALID", bytesOf "NET_AUTH_PROFILE_INVALID",
    bytesOf "NET_AUTH_PROFILE_UNAVAILABLE", bytesOf "NET_AUTH_PROFILE_SCOPE_MISMATCH",
    bytesOf "NET_AUTH_PROFILE_SECRET_UNAVAILABLE", bytesOf "NET_AUTH_PROFILE_NOT_ADMITTED",
    bytesOf "NET_AUTH_PROFILE_REQUIRES_HTTPS", bytesOf "NET_AUTH_PROFILE_DISCONNECTED"].contains reason

def classifySend (res : Result) (execErr : Option ExecError) : SendVerdict := match execErr with
  | some (.unknownTool _) => .notSent
  | some (.other _) => .unknown
  | none =>
    if res.error = [] then .delivered
    else if [bytesOf "OPERATOR_GRANT_REFUSES", bytesOf "OPERATION_ARGUMENT_INVALID",
        bytesOf "ARGUMENTS_REQUIRED"].contains res.reasonCode then .neverHere
    else if [bytesOf "ACTIVATION_WITHDRAWN", bytesOf "ACTIVATION_NOT_ADMITTED",
      bytesOf "CANCELLED_BEFORE_DISPATCH",
        bytesOf "SAFE_SUSPENDED", bytesOf "OPERATOR_DISABLED", bytesOf "DISPATCH_TARGET_CHANGED",
        bytesOf "NET_REMOTE_FAILED"].contains res.reasonCode then .notSent
    else if noEffect res.reasonCode then .notSent
    else .unknown

/-! ### Where a message can go -/

structure Contact where
  name : Bytes
  channel : Bytes
  address : Bytes
  operator : Bool
  deriving DecidableEq, Repr

structure Config where
  contacts : List Contact
  noticesOffDashboard : Bool

structure ChannelRoute where
  channel : Bytes
  plugin : Bytes
  send : Bytes
  deriving DecidableEq, Repr

def operatorLines (contacts : List Contact) : List Contact := contacts.filter (·.operator)

def noticeLines (c : Config) : List Contact := if c.noticesOffDashboard then operatorLines c.contacts else []

section
-- whether two names are one without blanks around them and without case
variable (sameName : Bytes → Bytes → Bool)

def linesOf (contacts : List Contact) (name : Bytes) :
    List Contact := contacts.filter fun c => sameName c.name name

def waysFor (c : Config) (m : OutboxMessage) : List Contact := match m.toRole with
  | .operator => noticeLines c
  | .peer => if m.recipientError ≠ [] ∨ m.toIdentity = [] then []
      else linesOf sameName c.contacts m.toIdentity

end

def maxDeliveryAttempts : Nat := 8

/-! ### A delivery pass -/

structure Walk where
  routes : List ChannelRoute
  todo : List OutboxMessage

/-- The variables of `deliverOne`. -/
structure Sending where
  message : OutboxMessage
  ways : List Contact
  tried : List Bytes
  claim : Option Dispatch
  permanent : Bool

inductive Pass
  /-- before it reads the messages to peers -/
  | listing
  /-- before it reads the notices -/
  | listed (pending : List OutboxMessage)
  /-- before it looks at the routes -/
  | routing (pending : List OutboxMessage)
  /-- between two messages -/
  | walking (walk : Walk)
  /-- in the loop over the lines of a message -/
  | sending (walk : Walk) (s : Sending)
  /-- in a call of an adapter, the `n`-th for the message -/
  | calling (walk : Walk) (s : Sending) (d : Dispatch) (way : Contact) (route : ChannelRoute) (n : Nat)
  /-- before the delivery is written -/
  | delivered (walk : Walk) (d : Dispatch) (via : Bytes)
  /-- before it is written that nobody knows -/
  | unknown (walk : Walk) (d : Dispatch) (via answer : Bytes)

inductive Page
  | listing
  | claiming (todo : List OutboxMessage) (claims : List Dispatch)
  | settling (shown : Bool) (claims : List Dispatch)

inductive Proc
  | pass (p : Pass)
  | page (p : Page)

/-- The rows, when the last restore brought messages back, whether the boot is over, and
for each message the calls it was handed over by, with their verdicts. -/
structure World where
  rows : Rows
  restoredUntil : Int
  live : Bool
  handed : Bytes → List (Option SendVerdict)

/-- What a step finds around it: the clock, the configuration, an open page, safe mode,
the installed routes, a context that is done, how a statement ends and what a call
answers. -/
structure Input where
  now : Int
  config : Config
  pageOpen : Bool
  safe : Bool
  routes : List ChannelRoute
  cancelled : Bool
  fate : Fate
  result : Result
  execErr : Option ExecError
  shown : Bool

def joined : List Bytes → Bytes
  | [] => []
  | [a] => a
  | a :: as => a ++ bytesOf "; " ++ joined as

section
variable (sameName : Bytes → Bytes → Bool)

namespace World

def hand (w : World) (id : Bytes) :
    World := { w with handed := Function.update w.handed id (w.handed id ++ [none]) }

def answer (w : World) (id : Bytes) (n : Nat) (v : SendVerdict) : World :=
  { w with handed := Function.update w.handed id ((w.handed id).set n (some v)) }

def exec {α : Type} (w : World) (i : Input) (op : Int → Rows → Except StoreError (α × Rows)) :
    Except StoreError α × World :=
  ((i.fate.of w.rows (op i.now w.rows)).1, { w with rows := (i.fate.of w.rows (op i.now w.rows)).2 })

end World

section
variable (i : Input) (w : World)

/-- The body of the loop in `deliverOne`. -/
def stepSending (walk : Walk) (s : Sending) : World × Pass := match s.ways with
  | [] =>
    match s.claim with
    | none => (w, .walking walk)
    | some d =>
      ((w.exec i (recordDeliveryAttempt d (joined s.tried) s.permanent maxDeliveryAttempts)).2, .walking walk)
  | way :: ways =>
    if s.message.requestedChannel ≠ [] ∧ way.channel ≠ s.message.requestedChannel then
      (w, .sending walk { s with ways := ways })
    else
      match walk.routes.find? fun r => r.channel = way.channel with
      | none => (w, .sending walk
          { s with ways := ways, tried := s.tried ++ [way.channel ++ bytesOf "(no adapter)"] })
      | some route =>
        match s.claim with
        | none =>
          if s.message.toRole = .operator ∧ i.pageOpen then (w, .walking walk)
          else
            match w.exec i (claimDispatch s.message.id) with
            | (.error _, w) => (w, .walking walk)
            | (.ok d, w) => (w, .sending walk { s with claim := some d })
        | some d =>
          (w.hand s.message.id, .calling walk s d way route (w.handed s.message.id).length)

def stepCalling (walk : Walk) (s : Sending) (d : Dispatch) (way : Contact) (route : ChannelRoute)
    (n : Nat) : World × Pass :=
  let answer := match i.execErr with
    | some e => e.text
    | none => i.result.error
  let tried := s.tried ++ [way.channel ++ bytesOf "(" ++ answer ++ bytesOf ")"]
  let verdict := classifySend i.result i.execErr
  let w := w.answer s.message.id n verdict
  match verdict with
  | .delivered => (w, .delivered walk d route.plugin)
  | .unknown => (w, .unknown walk d route.plugin answer)
  | .neverHere => (w, .sending walk { s with ways := s.ways.tail, tried := tried, permanent := true })
  | .notSent => (w, .sending walk { s with ways := s.ways.tail, tried := tried })

def stepPass : Pass → World × Option Pass
  | .listing => if i.fate = .done then (w, some (.listed (pendingPeerDeliveries w.rows))) else (w, none)
  | .listed pending =>
    if noticeLines i.config = [] ∨ i.pageOpen ∨ i.fate ≠ .done then (w, some (.routing pending))
    else (w, some (.routing (pending ++ pendingNotices w.restoredUntil w.rows)))
  | .routing pending =>
    if pending = [] ∨ i.safe ∨ i.routes = [] then (w, none) else (w, some (.walking ⟨i.routes, pending⟩))
  | .walking walk =>
    match walk.todo with
    | [] => (w, none)
    | m :: todo =>
      if i.cancelled then (w, none)
      else (w, some (.sending { walk with todo := todo } ⟨m, waysFor sameName i.config m, [], none, false⟩))
  | .sending walk s => ((stepSending i w walk s).1, some (stepSending i w walk s).2)
  | .calling walk s d way route n =>
    ((stepCalling i w walk s d way route n).1, some (stepCalling i w walk s d way route n).2)
  | .delivered walk d via => ((w.exec i (markDispatchDelivered d via)).2, some (.walking walk))
  | .unknown walk d via answer => ((w.exec i (markEffectUnknown d via answer)).2, some (.walking walk))

def stepPage : Page → World × Option Page
  | .listing => if i.fate = .done then (w, some (.claiming (pageNotices w.rows) [])) else (w, none)
  | .claiming [] claims => (w, some (.settling i.shown claims))
  | .claiming (m :: todo) claims =>
    match w.exec i (claimForPage m.id) with
    | (.error _, w) => (w, some (.claiming todo claims))
    | (.ok d, w) => (w, some (.claiming todo (claims ++ [d])))
  | .settling _ [] => (w, none)
  | .settling shown (d :: claims) =>
    if shown then ((w.exec i (markDispatchDelivered d (bytesOf "dashboard"))).2,
      some (.settling shown claims))
    else ((w.exec i fun _ => releaseDispatch d).2, some (.settling shown claims))

def stepProc : Proc → World × Option Proc
  | .pass p => ((stepPass sameName i w p).1, (stepPass sameName i w p).2.map .pass)
  | .page p => ((stepPage i w p).1, (stepPage i w p).2.map .page)

end

/-! ### The system -/

/-- What else changes the rows. The boot settles what was in flight before the first
pass; a page may be open by then. -/
inductive Env : World → World → Prop
  | insert {w m rows} (hm : ∃ id toRole toIdentity content createdMs,
      m = newMessage id toRole toIdentity content createdMs)
    (h : w.rows.insert? m = some rows) : Env w { w with rows := rows }
  | repair {w} (id recipient channel : Bytes) : Env w
      { w with rows := repairHeldMessage id recipient channel w.rows }
  | restore {w} (answer : Bytes) (now until' : Int) (hboot : w.live = false) :
    Env w { w with rows := settleRestore answer now w.rows, restoredUntil := until' }
  | boot {w} (answer : Bytes) (now : Int) (fate : Fate) (hboot : w.live = false) : Env w { w with
      rows := (fate.of w.rows (.ok ((), settleInterruptedDispatches answer now w.rows))).2
      live := true }

def rules : Procs.Rules World Proc where
  start w w' p := w' = w ∧ ((p = .pass .listing ∧ w.live) ∨ p = .page .listing)
  act w p w' o := ∃ i, stepProc sameName i w p = (w', o)
  env := Env
  stop w w' := w' = { w with live := false }

end

def World.start (rows : Rows) : World := ⟨rows, 0, false, fun _ => []⟩

end AiiOs.Outbox
