import AiiOs.Lib.Prog
import AiiOs.Lib.Text

/-! internal/updates: the swap of a plain program (`swapBinary`), the check a boot makes
before anything else (`CheckRollback`) and what a healthy boot writes (`WriteBootMarker`). -/

namespace AiiOs.Updates
open Lib

abbrev Name := List Char

abbrev Hash := List Char

/-- The last element of a path, as filepath.Base gives it. -/
def base (p : Name) : Name :=
  let q := (p.reverse.dropWhile (· = '/')).reverse
  if p = [] then ['.']
  else if q = [] then ['/']
  else (q.reverse.takeWhile (· ≠ '/')).reverse

def isFileName (n : Name) : Bool := n ≠ [] && n = base n

/-- The machine: its SHA-256 in hexadecimal, and the names a release installs beside the
program on this platform. -/
structure Host where
  sha256hex : Bytes → Hash
  sha256hex_ne : ∀ data, sha256hex data ≠ []
  installedBeside : List Name

structure InstalledFile where
  name : Name
  data : Bytes
  deriving DecidableEq, Repr

/-- What is taken out of a release: each file once, under a plain file name. -/
structure Release where
  version : Name
  newBinary : Bytes
  beside : List InstalledFile
  nodup : (beside.map InstalledFile.name).Nodup
  plain : ∀ f ∈ beside, isFileName f.name

structure BesideSwap where
  name : Name
  backupSHA256 : Hash
  newSHA256 : Hash
  deriving DecidableEq, Repr

structure UpdatePending where
  attempts : Nat
  backupSHA256 : Hash
  newSHA256 : Hash
  version : Name
  owner : Name
  beside : List BesideSwap
  deriving DecidableEq, Repr

/-! ### Files -/

/-- The program with what is kept beside it and in the identity's data directory. -/
structure Install where
  program : Bytes
  beside : Name → Option Bytes
  besideBackup : Name → Option Bytes
  backup : Option Bytes
  record : Option UpdatePending
  marker : Bool
  retiredMarker : Bool
  /-- The release a rollback undid, with its hash. -/
  failed : Option (Name × Hash)
  /-- The program of an update that installed nothing beside it. -/
  incomplete : Option Hash

namespace Install

def setProgram (data : Bytes) (d : Install) : Install := { d with program := data }

def setBeside (n : Name) (v : Option Bytes) (d : Install) : Install :=
  { d with beside := Function.update d.beside n v }

def setBesideBackup (n : Name) (v : Option Bytes) (d : Install) : Install :=
  { d with besideBackup := Function.update d.besideBackup n v }

def setBackup (v : Option Bytes) (d : Install) : Install := { d with backup := v }

def setRecord (v : Option UpdatePending) (d : Install) : Install := { d with record := v }

def setMarker (v : Bool) (d : Install) : Install := { d with marker := v }

def setRetiredMarker (v : Bool) (d : Install) : Install := { d with retiredMarker := v }

def setFailed (v : Name × Hash) (d : Install) : Install := { d with failed := some v }

def setIncomplete (v : Hash) (d : Install) : Install := { d with incomplete := some v }

end Install

/-- How the replacement of a file ends: it lasts, it is made but is not known to last, or
it is not made. -/
inductive Outcome
  | durable
  | published
  | refused
  deriving DecidableEq, Repr, Inhabited

inductive SwapStage
  | record
  | backup
  | besideBackup (n : Name)
  | retireMarker
  | install (n : Name)
  | rename
  deriving DecidableEq, Repr

inductive SwapError
  /-- The swap was taken back, if `clean` without leaving a file of its own. -/
  | withdrawn (stage : SwapStage) (clean : Bool)
  | notRearmed (stage : SwapStage) (back : Bool)
  | notPutBack (stage : SwapStage)
  | notDurable
  deriving DecidableEq, Repr

abbrev Swap := Prog Install Outcome SwapError

/-! ### The swap -/

def replace (f : Install → Install) : Swap Outcome :=
  .ask fun o => if o = .refused then pure o else do .act f; pure o

def withdraw (f : Install → Install) : Swap Bool :=
  .ask fun o => if o = .refused then pure false else do .act f; pure true

def withdrawAll : List (Install → Install) → Swap Bool
  | [] => pure true
  | f :: fs => do
    let ok ← withdraw f
    let rest ← withdrawAll fs
    pure (ok && rest)

section
variable (host : Host) (pend : UpdatePending)

def besideBackups : List Name :=
  pend.beside.foldl
    (fun names b => if b.name ∉ names ∧ isFileName b.name then names ++ [b.name] else names)
    host.installedBeside

def retirements : List (Install → Install) :=
  (besideBackups host pend).map (Install.setBesideBackup · none) ++ [.setBackup none, .setRecord none]

def withdrawSwap : Swap Bool := withdrawAll (retirements host pend)

def pendingOf (host : Host) (owner : Name) (rel : Release) (d : Install) : UpdatePending where
  attempts := 0
  backupSHA256 := host.sha256hex d.program
  newSHA256 := host.sha256hex rel.newBinary
  version := rel.version
  owner := owner
  beside := rel.beside.map fun f =>
    ⟨f.name, ((d.beside f.name).map host.sha256hex).getD [], host.sha256hex f.data⟩

/-- Whether the marker was moved away, and whether the move is known to last. -/
def retireBootMarker : Swap (Bool × Bool) := do
  if !(← Prog.read Install.marker) then pure (false, true)
  else
    match ← replace fun d => (d.setMarker false).setRetiredMarker true with
    | .durable => pure (true, true)
    | .published => pure (true, false)
    | .refused => pure (false, false)

def rearmBootMarker : Swap Outcome := replace fun d => (d.setRetiredMarker false).setMarker true

def retireSwapState (retired : Bool) (stage : SwapStage) : Swap Unit := do
  match ← (if retired then rearmBootMarker else pure .durable) with
  | .durable =>
    let clean ← withdrawSwap host pend
    .fail (.withdrawn stage clean)
  | o => .fail (.notRearmed stage (o = .published))

section
variable (stood : Name → Option Bytes)

def putBackOne (f : InstalledFile) : Swap Bool :=
  match stood f.name with
  | some old => do
    let o ← replace (.setBeside f.name (some old))
    pure (o == .durable)
  | none => withdraw (.setBeside f.name none)

def putBack (stood : Name → Option Bytes) : List InstalledFile → Swap Bool
  | [] => pure true
  | f :: fs => do
    let ok ← putBackOne stood f
    let rest ← putBack stood fs
    pure (ok && rest)

def abandon (retired : Bool)
    (installed : List InstalledFile) (stage : SwapStage) : Swap Unit := do
  if ← putBack stood installed then retireSwapState host pend retired stage
  else .fail (.notPutBack stage)

/-- Install the files and then the program. `installed` holds the files that are in place,
the last one first. -/
def installAll (host : Host) (pend : UpdatePending) (stood : Name → Option Bytes) (retired : Bool)
    (newBinary : Bytes) (installed : List InstalledFile) : List InstalledFile → Swap Unit
  | [] => do
    match ← replace (.setProgram newBinary) with
    | .durable => pure ()
    | .published => .fail .notDurable
    | .refused => abandon host pend stood retired installed .rename
  | f :: fs => do
    match ← replace (.setBeside f.name (some f.data)) with
    | .durable => installAll host pend stood retired newBinary (f :: installed) fs
    | .published => abandon host pend stood retired (f :: installed) (.install f.name)
    | .refused => abandon host pend stood retired installed (.install f.name)

def backUpBeside (f : InstalledFile) :
    Swap Unit := do
  match stood f.name with
  | none => pure ()
  | some old =>
    match ← replace (.setBesideBackup f.name (some old)) with
    | .durable => pure ()
    | _ =>
      let clean ← withdrawSwap host pend
      .fail (.withdrawn (.besideBackup f.name) clean)

def publish (rel : Release) : Swap Unit := do
  match ← retireBootMarker with
  | (retired, false) => retireSwapState host pend retired .retireMarker
  | (retired, true) => installAll host pend stood retired rel.newBinary [] rel.beside

end

def backUp (d : Install) (rel : Release) : Swap Unit := do
  match ← replace (.setBackup (some d.program)) with
  | .durable =>
    forM rel.beside (backUpBeside host pend d.beside)
    publish host pend d.beside rel
  | _ =>
    let clean ← withdraw (.setRecord none)
    .fail (.withdrawn .backup clean)

def swapBinary (host : Host) (owner : Name) (rel : Release) : Swap Unit := do
  let d ← Prog.read id
  let pend := pendingOf host owner rel d
  match ← replace (.setRecord (some pend)) with
  | .durable => backUp host pend d rel
  | _ =>
    let clean ← withdraw (.setRecord none)
    .fail (.withdrawn .record clean)

/-! ### Boots -/

/-- A boot stops at any step or goes on: none of its operations fails. -/
abbrev Booting := Prog Install Unit Empty

def claimOf (owner : Name) (d : Install) : Option UpdatePending := d.record.filter fun p => p.owner = owner

def retire : Booting Unit := forM (retirements host pend) .act

/-- What is put in the place of a file beside the program, if anything is: nothing where
it is not the file the update installed, or what was kept of it is not what was recorded. -/
def restoration (host : Host) (b : BesideSwap) (cur kept : Option Bytes) : Option (Option Bytes) :=
  let changed := match cur with
    | none => b.backupSHA256 == []
    | some cur => host.sha256hex cur != b.newSHA256
  if !isFileName b.name || changed then none
  else if b.backupSHA256 = [] then some none
  else (kept.filter fun prev => host.sha256hex prev = b.backupSHA256).map some

def restoreOne (host : Host) (b : BesideSwap) : Booting Unit := do
  match ← Prog.read fun d => restoration host b (d.beside b.name) (d.besideBackup b.name) with
  | none => pure ()
  | some v => .act (.setBeside b.name v)

def restoreBeside : Booting Unit := forM pend.beside (restoreOne host)

def settleCutOff : Booting Unit := do
  let d ← Prog.read id
  if pend.beside = [] ∨ pend.backupSHA256 = [] ∨ host.sha256hex d.program ≠ pend.backupSHA256 then pure ()
  else restoreBeside host pend

def noteFailed (pend : UpdatePending) : Booting Unit :=
  if pend.version = [] then pure () else .act (.setFailed (pend.version, pend.newSHA256))

def rollback (prev : Bytes) : Booting Bool := do
  let d ← Prog.read id
  if pend.backupSHA256 ≠ [] ∧ host.sha256hex prev ≠ pend.backupSHA256 then pure false
  else if pend.newSHA256 ≠ [] ∧ host.sha256hex d.program ≠ pend.newSHA256 then do
    settleCutOff host pend
    retire host pend
    pure false
  else do
    restoreBeside host pend
    .act (.setProgram prev)
    noteFailed pend
    retire host pend
    pure true

def settle (host : Host) (uncounted : Bool) (pend : UpdatePending) : Booting Bool := do
  let d ← Prog.read id
  match d.backup with
  | none => do
    .act (.setRecord none)
    pure false
  | some prev =>
    if d.marker then do
      retire host pend
      pure false
    else if pend.attempts = 0 ∧ !uncounted then do
      .act (.setRecord (some { pend with attempts := 1 }))
      pure false
    else rollback host pend prev

def checkRollback (host : Host) (owner : Name) : Booting Bool := do
  match ← Prog.read (claimOf owner) with
  | none => pure false
  | some pend => settle host false pend

def noteIncomplete : Booting Unit :=
  if pend.newSHA256 = [] ∨ pend.beside ≠ [] ∨ host.installedBeside = [] then pure ()
  else .act (.setIncomplete pend.newSHA256)

end

def writeBootMarker (host : Host) (owner : Name) : Booting Unit := do
  .act (.setMarker true)
  .act (.setRetiredMarker false)
  match ← Prog.read (claimOf owner) with
  | none => pure ()
  | some pend => do
    noteIncomplete host pend
    settleCutOff host pend
    retire host pend

end AiiOs.Updates
