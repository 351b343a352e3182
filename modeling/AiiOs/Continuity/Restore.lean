import AiiOs.Lib.Prog
import AiiOs.Lib.Text
import Mathlib.Data.List.AList
import Mathlib.Data.List.Infix

/-! internal/continuity: the journalled restore (`planRestoreMoves`, `finishRestore`,
`journalMade`, `withdrawJournal`, `PerformPendingRestore`). -/

namespace AiiOs.Continuity
open Lib

/-! ### Names -/

abbrev Name := List Char

def snapshotDB : Name := charsOf "aii.db"

def snapshotLedger : Name := charsOf "ledger.jsonl"

def tailFileName : Name := charsOf "witness-tail.json"

def sumsName : Name := charsOf "SHA256SUMS"

def witnessKeysDir : Name := charsOf "witness-keys/"

def notCompletedDir : Name := charsOf "not-completed/"

def databaseSidecars : List Name := [charsOf "-wal", charsOf "-shm", charsOf "-journal"]

/-- `segment-N-M.jsonl.gz` -/
def isSegmentName (n : Name) : Bool := (charsOf "segment-").isPrefixOf n && let first := n.drop 8
    let second := (first.dropWhile Char.isDigit).drop 1
    (first.takeWhile Char.isDigit ≠ []) && ((first.dropWhile Char.isDigit).take 1 == ['-']) &&
      (second.takeWhile Char.isDigit ≠ []) && (second.dropWhile Char.isDigit == charsOf ".jsonl.gz")

def isDatabaseSidecar (rel : Name) : Bool := databaseSidecars.any fun side => rel == snapshotDB ++ side

structure Names where
  db : Name
  ledger : Name
  base : '/' ∉ db ∧ '/' ∉ ledger

/-- The names are of different files, none of them a segment's name. -/
structure Settings extends Names where
  distinct : (ledger :: db :: tailFileName :: databaseSidecars.map (db ++ ·)).Nodup
  plain : ∀ n ∈ ledger :: db :: databaseSidecars.map (db ++ ·), '/' ∉ n ∧ isSegmentName n = false

instance : Coe Settings Names := ⟨Settings.toNames⟩

def setName (cfg : Names) (live : Name) : Name := if live = cfg.ledger then snapshotLedger
  else if live = cfg.db then snapshotDB
  else if (cfg.db ++ ['-']).isPrefixOf live && isDatabaseSidecar (snapshotDB ++ live.drop cfg.db.length) then
    snapshotDB ++ live.drop cfg.db.length
  else live

def installName (cfg : Names) (rel : Name) : Option Name := if rel = snapshotDB then some cfg.db
  else if rel = snapshotLedger then some cfg.ledger
  else if rel = tailFileName then some tailFileName
  else if isSegmentName rel then some rel
  else if isDatabaseSidecar rel then some (cfg.db ++ rel.drop snapshotDB.length)
  else if witnessKeysDir.isPrefixOf rel then some rel
  else none

/-! ### Files -/

/-- Where a file of the restore is: in the identity's directory, in the directory of what
is set aside, or in the staged set. -/
inductive Place
  | live (n : Name)
  | aside (n : Name)
  | staged (n : Name)
  deriving DecidableEq, Repr

def Place.name : Place → Name
  | .live n | .aside n | .staged n => n

def notCompleted (n : Name) : Place := .aside (notCompletedDir ++ n)

/-- Where a file came from, which the code does not see: it was live when the journal
was written, it was staged, or it was written since. -/
inductive Origin
  | before
  | staged
  | since
  deriving DecidableEq, Repr

structure File where
  content : Bytes
  origin : Origin
  deriving DecidableEq, Repr

inductive Mark
  | request
  | journal
  | failed
  | newMachine
  | settle
  | record
  | asideFailed
  deriving DecidableEq, Repr

structure Disk where
  files : AList fun _ : Place => File
  marks : Mark → Bool

namespace Disk

section
variable (d : Disk)

def at? (p : Place) : Option File := d.files.lookup p

def has (p : Place) : Bool := (d.at? p).isSome

def rename (a b : Place) (d : Disk) : Disk := match d.at? a with
  | none => d
  | some f => { d with files := (d.files.erase a).insert b f }

def copy (a b : Place) (d : Disk) : Disk := match d.at? a with
  | none => d
  | some f => { d with files := d.files.insert b f }

def remove (p : Place) (d : Disk) : Disk := { d with files := d.files.erase p }

def mark (m : Mark) (d : Disk) : Disk := { d with marks := fun k => if k = m then true else d.marks k }

def unmark (m : Mark) (d : Disk) : Disk := { d with marks := fun k => if k = m then false else d.marks k }

def liveNames : List Name := d.files.keys.filterMap fun | .live n => some n | _ => none

def stagedNames : List Name := d.files.keys.filterMap fun | .staged n => some n | _ => none

def asideEmpty : Bool :=
  d.files.keys.all (fun | .aside _ => false | _ => true) && !d.marks .record && !d.marks .asideFailed

def removeStaging : Disk := d.stagedNames.foldl (fun d n => d.remove (.staged n)) d

end

end Disk

/-! ### The journal -/

inductive MoveKind
  | preserve
  | copy
  | install
  deriving DecidableEq, Repr

structure RestoreMove where
  source : Place
  dest : Place
  kind : MoveKind
  deriving DecidableEq, Repr

section
variable (cfg : Names)

def preserved (d : Disk) : List Name :=
  (cfg.db :: databaseSidecars.map (cfg.db ++ ·) ++ [cfg.ledger, tailFileName] ++
    d.liveNames.filter isSegmentName).filter fun n => d.has (.live n)

def isKeyName (n : Name) : Bool := witnessKeysDir.isPrefixOf n &&
    let base := n.drop witnessKeysDir.length
    ('/' ∉ base) && !(['.'].isPrefixOf base) && (charsOf ".json").isSuffixOf base

def copied (d : Disk) : List Name := d.liveNames.filter isKeyName

def keepMove (kind : MoveKind) (n : Name) : RestoreMove := ⟨.live n, .aside (setName cfg n), kind⟩

def installMoves (d : Disk) : List RestoreMove :=
  (d.stagedNames.filter (· ≠ sumsName)).filterMap fun rel =>
    (installName cfg rel).map fun n => ⟨.staged rel, .live n, .install⟩

def planRestoreMoves (d : Disk) : List RestoreMove :=
  (preserved cfg d).map (keepMove cfg .preserve) ++ (copied d).map (keepMove cfg .copy) ++
    installMoves cfg d

inductive WithdrawError
  | neither (i : Nat)
  | taken (i : Nat)
  | notFree (i : Nat)
  | claimed (i : Nat)
  deriving DecidableEq, Repr

inductive RestoreError
  | nothingToDo
  | outside (i : Nat)
  | neither (i : Nat)
  | incomplete (i : Nat)
  | inPlace (i : Nat)
  | cannot (e : WithdrawError)
  | requested
  deriving DecidableEq, Repr

def mine (rel : Name) : Bool := rel = cfg.db || rel = cfg.ledger || rel = tailFileName ||
    ((cfg.db ++ ['-']).isPrefixOf rel && isDatabaseSidecar (snapshotDB ++ rel.drop cfg.db.length)) ||
    isSegmentName rel ||
    (witnessKeysDir.isPrefixOf rel && (charsOf ".json").isSuffixOf rel && rel.count '/' = 1)

def moveInside (m : RestoreMove) : Bool := match m.kind, m.source, m.dest with
  | .preserve, .live n, .aside a | .copy, .live n, .aside a => mine cfg n && a = setName cfg n
  | .install, .staged _, .live n => mine cfg n
  | _, _, _ => false

def readRestoreJournal (moves : List RestoreMove) : Except RestoreError Unit :=
  if moves = [] then .error .nothingToDo
  else
    match moves.findIdx? fun m => !moveInside cfg m with
    | some i => .error (.outside i)
    | none => .ok ()

end

/-! ### What has been done -/

section
variable (moves : List RestoreMove)

def keptFrom (p : Place) : Option RestoreMove :=
  (moves.filter fun k => k.kind ≠ .install).reverse.find? fun k => k.source = p

/-- Whether a move is taken to have been made. Of an install, the staged file is gone and
nothing else is thought to have put the file that stands in its place. -/
def made (d : Disk) (m : RestoreMove) : Bool := if m.kind = .install then
    !d.has m.source && match keptFrom moves m.dest with
      | some k => d.has m.dest && k.kind = .preserve && d.has k.dest
      | none => d.has m.dest
  else d.has m.dest

def performable (d : Disk) : Bool :=
  (moves.filter fun m => m.kind = .install).all fun m => d.has m.source || made moves d m

/-! ### Putting back -/

structure Undo where
  back : List (Place × Place)
  vacated : List Place
  claimed : List Place

def undoMove (d : Disk) (u : Undo) (im : RestoreMove × Nat) : Except WithdrawError Undo :=
  let (m, i) := im
  if made moves d m then
    if m.kind = .preserve then
      if d.has m.source ∧ m.source ∉ u.vacated then .error (.taken i)
      else .ok { u with back := u.back ++ [(m.dest, m.source)], claimed := m.source :: u.claimed }
    else if d.has (notCompleted m.dest.name) then .error (.notFree i)
    else if notCompleted m.dest.name ∈ u.claimed then .error (.claimed i)
    else
      .ok ⟨u.back ++ [(m.dest, notCompleted m.dest.name)], m.dest :: u.vacated,
        notCompleted m.dest.name :: u.claimed⟩
  else if m.kind = .install ∨ d.has m.source then .ok u
  else .error (.neither i)

def undoPlan (d : Disk) : Except WithdrawError (List (Place × Place)) :=
  (moves.zipIdx.reverse.foldlM (undoMove moves d) ⟨[], [], []⟩).map Undo.back

abbrev Restoring := Prog Disk Unit RestoreError Unit

def removeMark (m : Mark) : Restoring := .act (Disk.unmark m)

def markAside (m : Mark) : Restoring := do
  if !(← Prog.read Disk.asideEmpty) then .act (Disk.mark m)

def closeWithdrawn : Restoring := do
  removeMark .record
  removeMark .settle
  markAside .asideFailed
  .act (Disk.mark .failed)
  removeMark .request
  removeMark .journal
  .act Disk.removeStaging

def withdrawJournal : Restoring := do
  match ← Prog.read (undoPlan moves) with
  | .error e => .fail (.cannot e)
  | .ok back =>
    forM back fun (a, b) => .act (Disk.rename a b)
    closeWithdrawn

/-! ### Rolling forward -/

def performMove (im : RestoreMove × Nat) : Restoring := do
  let (m, i) := im
  let d ← Prog.read id
  if m.kind = .install then
    match d.at? m.source, d.at? m.dest with
    | none, some _ => pure ()
    | none, none => .fail (.incomplete i)
    | some f, some g => if f.content ≠ g.content then .fail (.inPlace i) else pure ()
    | some _, none => .act (Disk.rename m.source m.dest)
  else if d.has m.dest then pure ()
  else if !d.has m.source then .fail (.neither i)
  else if m.kind = .copy then .act (Disk.copy m.source m.dest)
  else .act (Disk.rename m.source m.dest)

def closeFinished : Restoring := do
  markAside .record
  .act (Disk.mark .settle)
  removeMark .request
  removeMark .failed
  removeMark .newMachine
  removeMark .journal
  .act Disk.removeStaging

def finishRestore : Restoring := do
  if !(← Prog.read (performable moves)) then withdrawJournal moves
  else
    forM moves.zipIdx performMove
    closeFinished

end

/-- A start. A request with no journal is planned afresh, as another restore. -/
def performPendingRestore (cfg : Settings) (moves : List RestoreMove) : Restoring := do
  let d ← Prog.read id
  if d.marks .journal then
    match readRestoreJournal cfg moves with
    | .error e => .fail e
    | .ok () => finishRestore moves
  else if d.marks .request then .fail .requested
  else pure ()

end AiiOs.Continuity
