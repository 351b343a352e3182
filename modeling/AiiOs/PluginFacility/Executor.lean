import AiiOs.Lib.Prog
import AiiOs.Lib.Text

/-! internal/pluginfacility: the executor of a plugin with the leases it has in custody
(`Send`, `withdraw`, `Close`, `run`, `activate`, `failedServing`, `shutdown`). What other
goroutines do happens between its own steps. -/

namespace AiiOs.PluginFacility
open Lib

abbrev Generation := Nat

structure Lease where
  held : List (List Char)
  released : Bool
  withdrawn : Bool
  deriving DecidableEq, Repr

def Lease.discharged (l : Lease) : Bool := l.released && l.held.isEmpty

inductive CommandKind
  | activate
  | update
  | deactivate
  | readmission
  deriving DecidableEq, Repr

structure Command where
  kind : CommandKind
  gen : Generation
  deriving DecidableEq, Repr

structure Attempt where
  gen : Generation
  committed : Bool
  cancelled : Bool
  deriving DecidableEq, Repr

/-- An attempt that is to be taken back by who chose it under the lock: its lease is
withdrawn, and after that its context cancelled. -/
structure TakeBack where
  gen : Generation
  withdrawn : Bool
  deriving DecidableEq, Repr

structure Executor where
  leases : Generation → Lease
  /-- The first generation that was not given. -/
  next : Generation
  pending : Option Command
  running : Option Attempt
  closed : Bool
  active : Option Generation
  retiring : List Generation
  takeBacks : List TakeBack
  /-- The activations that were announced, with whether the lease was authorised then. -/
  served : List (Generation × Bool)
  /-- A lease that still held something when the redirect away from it panicked. -/
  lost : Option Generation
  /-- An attempt was committed with a taking back of it under way, or a committed one was
  chosen to be taken back. -/
  crossed : Bool

namespace Executor

def init : Executor where
  leases _ := ⟨[], false, false⟩
  next := 1
  pending := none
  running := none
  closed := false
  active := none
  retiring := []
  takeBacks := []
  served := []
  lost := none
  crossed := false

def setLease (g : Generation) (l : Lease) (e : Executor) : Executor :=
  { e with leases := Function.update e.leases g l }

/-- The holds are given back from the last one on, until one fails. -/
def release (g : Generation) (keep : Nat) (e : Executor) : Executor :=
  e.setLease g { e.leases g with held := (e.leases g).held.take keep, released := true }

def withdraw (g : Generation) (e : Executor) : Executor := e.setLease g { e.leases g with withdrawn := true }

def hold (g : Generation) (names : List (List Char)) (e : Executor) : Executor :=
  e.setLease g { e.leases g with held := (e.leases g).held ++ names }

def setActive (g : Option Generation) (e : Executor) : Executor := { e with active := g }

def setRetiring (l : List Generation) (e : Executor) : Executor := { e with retiring := l }

def setRunning (a : Option Attempt) (e : Executor) : Executor := { e with running := a }

def setPending (c : Option Command) (e : Executor) : Executor := { e with pending := c }

def cancel (e : Executor) : Executor :=
  e.setRunning (e.running.map fun a => { a with cancelled := true })

def cancelled (e : Executor) : Bool := e.running.any Attempt.cancelled

def choose (a : Attempt) (e : Executor) : Executor :=
  { e with takeBacks := e.takeBacks ++ [⟨a.gen, false⟩], crossed := e.crossed || a.committed }

def drop (e : Executor) : Executor := match e.pending with
  | none => e
  | some c => (e.release c.gen 0).setPending none

end Executor

/-! ### The other goroutines -/

/-- What another goroutine does in one step: a region under the executor's lock, one half
of a taking back, or a release of a lease that is being retired. -/
inductive Other
  | send (kind : CommandKind)
  | withdraw (gen : Generation)
  | close
  | takeBack (i : Nat)
  | cancel (i : Nat)
  | parentDone
  | release (gen : Generation) (keep : Nat)
  deriving DecidableEq, Repr

namespace Executor

def send (kind : CommandKind) (e : Executor) : Executor := if e.closed then e
  else
    let e' := { e.drop with pending := some ⟨kind, e.next⟩, next := e.next + 1 }
    match e.running with
    | some a => if kind ≠ .readmission ∧ a.committed = false then e'.choose a else e'
    | none => e'

def withdrawGen (g : Generation) (e : Executor) : Executor := match e.running with
  | some a => if a.gen = g then e.choose a else if e.pending.any (·.gen = g) then e.drop else e
  | none => if e.pending.any (·.gen = g) then e.drop else e

def close (e : Executor) : Executor := if e.closed then e
  else
    let e' := { e.drop with closed := true }
    match e.running with
    | some a => e'.choose a
    | none => e'

def takeBack (i : Nat) (e : Executor) : Executor := match e.takeBacks[i]? with
  | none => e
  | some t => { e.withdraw t.gen with takeBacks := e.takeBacks.set i { t with withdrawn := true } }

def cancelTakenBack (i : Nat) (e : Executor) : Executor := match e.takeBacks[i]? with
  | some ⟨g, true⟩ =>
    let e' := { e with takeBacks := e.takeBacks.eraseIdx i }
    if e.running.any (·.gen = g) then e'.cancel else e'
  | _ => e

def other : Other → Executor → Executor
  | .send kind, e => e.send kind
  | .withdraw g, e => e.withdrawGen g
  | .close, e => e.close
  | .takeBack i, e => e.takeBack i
  | .cancel i, e => e.cancelTakenBack i
  | .parentDone, e => e.cancel
  | .release g keep, e => if g ∈ e.retiring ∨ (e.leases g).released then e.release g keep else e

end Executor

/-! ### The executor's own goroutine -/

inductive Outcome
  | ok
  | error
  | panic
  deriving DecidableEq, Repr, Inhabited

/-- What the surroundings decide before a step of the executor: what other goroutines do
until then, how a runtime operation ends, what it holds, what a release leaves, and which
way a question is answered that the model does not follow. -/
structure Answer where
  others : List Other
  outcome : Outcome
  held : List (List Char)
  keep : Nat
  flag : Bool
  deriving Inhabited

abbrev Exec (ε : Type) := Prog Executor Answer ε

section
variable {ε : Type}

def turn : Exec ε Answer := .ask fun a => do
    forM a.others fun o => .act (Executor.other o)
    pure a

def question : Exec ε Bool := do
  let a ← turn
  pure a.flag

def releaseLease (g : Generation) : Exec ε Unit := do
  let a ← turn
  .act (Executor.release g a.keep)

def keepRetiring (g : Generation) : Exec ε Unit := do
  let _ ← turn
  let e ← Prog.read id
  if (e.leases g).discharged ∨ g ∈ e.retiring then pure ()
  else .act (Executor.setRetiring (e.retiring ++ [g]))

def retirementPending : Exec ε Bool := do
  let _ ← turn
  .act fun e => e.setRetiring (e.retiring.filter fun g => !(e.leases g).discharged)
  Prog.read fun e => !e.retiring.isEmpty

/-- The activation that serves has stopped, unless the question is answered with no. -/
def failedServing : Exec ε Unit := do
  let terminal ← question
  let e ← Prog.read id
  match e.active with
  | none => pure ()
  | some g =>
    if e.closed ∨ !terminal then pure ()
    else do
      .act (Executor.setActive none)
      .act (Executor.withdraw g)
      releaseLease g
      keepRetiring g

/-- The work is done by another goroutine, or here if none can be started. -/
def retire (g : Generation) : Exec ε Unit := do
  .act (Executor.withdraw g)
  .act fun e => e.setRetiring (e.retiring ++ [g])
  if ← question then releaseLease g

/-- An attempt that ended with the activation it stood beside ends that one, too. -/
def refuse (g : Generation) : Exec ε Unit := do
  releaseLease g
  keepRetiring g
  if ← question then failedServing

end

inductive Panic
  | panic
  deriving DecidableEq, Repr

def call : Exec Panic Bool := do
  let a ← turn
  match a.outcome with
  | .ok => pure true
  | .error => pure false
  | .panic => .fail .panic

def optionalCall : Exec Panic Bool := do
  if ← question then call else pure true

section
variable (g : Generation)

def admitStage : Exec Panic Bool := do
  if ← question then
    if ← call then do
      .act (Executor.hold g [charsOf "reservation"])
      pure true
    else pure false
  else pure true

def startStage : Exec Panic Bool := do
  let a ← turn
  .act (Executor.hold g a.held)
  match a.outcome with
  | .ok => do
    .act (Executor.hold g [charsOf "activation"])
    pure true
  | .error => pure false
  | .panic => .fail .panic

/-- The watch over the activation that serves ends: if that one has stopped, the attempt
was taken back with it. -/
def besideStage : Exec Panic Bool := do
  if ← question then .act fun e => (e.withdraw g).cancel
  pure true

def allOk : List (Exec Panic Bool) → Exec Panic Bool
  | [] => pure true
  | p :: ps => do
    if ← p then allOk ps else pure false

/-- Verify, what the manifest and the policy say, Prepare, Acquire, Admit, Start, Health,
Validate, and the end of the watch. -/
def standUp : Exec Panic Bool :=
  allOk [call, question, call, optionalCall, admitStage g, startStage g, call, optionalCall, besideStage g]

def takeSlot : Exec Panic (Option (Option Generation)) := do
  let commit ← question
  let e ← Prog.read id
  if e.closed ∨ e.cancelled then pure none
  else if !commit then do
    .act (Executor.withdraw g)
    pure none
  else do
    .act (Executor.setActive (some g))
    pure (some e.active)

section
variable (previous : Option Generation)

def lose (e : Executor) : Executor := match previous with
  | none => e
  | some p => if (e.leases p).held = [] then e else { e with lost := some p }

def redirect : Exec Panic Bool := do
  let a ← turn
  match a.outcome with
  | .ok => pure true
  | .error => pure false
  | .panic => do
    .act (lose previous)
    .fail .panic

def serve (e : Executor) : Executor := { e with
    running := e.running.map fun a => if a.gen = g then { a with committed := true } else a
    served := (g, !(e.leases g).withdrawn) :: e.served
    crossed := e.crossed || e.takeBacks.any (·.gen = g) }

def retirePrevious : Exec Panic Unit := match previous with
  | none => pure ()
  | some p => retire p

def withdrawn : Exec Panic Unit := do
  .act (Executor.setActive previous)
  .act (Executor.setActive none)
  retirePrevious previous
  refuse g

def settle : Exec Panic Unit := do
  let _ ← turn
  let e ← Prog.read id
  if e.closed ∨ e.cancelled then withdrawn g previous
  else do
    .act (serve g)
    retirePrevious previous

end

def commit : Exec Panic Unit := do
  match ← takeSlot g with
  | none => refuse g
  | some previous =>
    if ← redirect previous then settle g previous
    else do
      .act (Executor.setActive previous)
      refuse g

def activate : Exec Panic Unit := do
  if ← retirementPending then refuse g
  else if ← standUp g then commit g
  else refuse g

def deactivate : Exec Panic Unit := do
  match ← Prog.read Executor.active with
  | none => pure ()
  | some g => do
    .act (Executor.setActive none)
    retire g

def readmission : Exec Panic Unit := do
  if (← Prog.read Executor.active).isNone then pure ()
  else do
    let ok ← call
    let allowed ← question
    if (← Prog.read Executor.cancelled) ∨ (ok ∧ allowed) then pure ()
    else deactivate

def recover : Exec Empty Unit := do
  releaseLease g
  .act fun e => if e.active = some g then e.setActive none else e
  keepRetiring g

end

def perform (c : Command) : Exec Empty Unit := do
  match c.kind with
  | .deactivate => do
    let _ ← deactivate.attempt
  | .readmission => do
    let _ ← readmission.attempt
  | _ => do
    match ← (activate c.gen).attempt with
    | .ok () => pure ()
    | .error _ => recover c.gen

def run (c : Command) : Exec Empty Unit := do
  let _ ← turn
  if ← Prog.read Executor.closed then .act (Executor.release c.gen 0)
  else do
    .act (Executor.setRunning (some ⟨c.gen, false, false⟩))
    perform c
    .act (Executor.setRunning none)

def loopOnce : Exec Empty Bool := do
  let a ← turn
  let e ← Prog.read id
  .act (Executor.setPending none)
  match e.pending with
  | none =>
    if e.closed then pure false
    else if a.flag then do
      failedServing
      pure true
    else if ← question then do
      .act Executor.close
      pure false
    else pure true
  | some c =>
    if e.closed then do
      .act (Executor.release c.gen 0)
      pure false
    else do
      run c
      pure true

def shutdown : Exec Empty Unit := do
  let e ← Prog.read id
  .act (Executor.setActive none)
  match e.active with
  | none => pure ()
  | some g => do
    .act (Executor.withdraw g)
    releaseLease g
  forM e.retiring fun g => do
    let e' ← Prog.read id
    if e.active = some g ∨ (e'.leases g).discharged then pure () else releaseLease g

end AiiOs.PluginFacility
