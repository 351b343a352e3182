import AiiOs.Ledger.Open

/-! internal/ledger: `Seal` moves the records up to a witness head into a segment and
keeps the signature of the head alone. Its effect on the files is a list of steps. -/

namespace AiiOs.Ledger
open Lib

inductive SealError
  | frozen (r : FrozenReason)
  | closed
  | recoveryRequired (e : SealFault)
  | beyondLast (head lastSeq : Nat)
  | alreadySealed (head sealedSeq : Nat)
  | noTail
  | malformed (number : Nat) (e : EventError)
  | order (seq expected : Nat)
  | unsignedRecord (seq : Nat)
  | marshal (e : EventError)
  | withoutHead (seq : Nat)
  | tooLong
  | tailEnds (head : Nat)
  | flush
  | writeSegment
  | renameSegment
  deriving DecidableEq, Repr

structure SegmentCopy where
  content : Bytes
  afterHead : Nat
  headHash : Bytes
  deriving DecidableEq, Repr

def copyRecords (sha256 : Bytes → Bytes) (first head : Nat) (long : Bool) :
    Nat → List Line → Except SealError SegmentCopy
  | _, [] => .error (if long then .tooLong else .tailEnds head)
  | expect, l :: ls =>
    match decodeEvent l.text with
    | .error e => .error (.malformed l.number e)
    | .ok evt =>
      if evt.seq < first then copyRecords sha256 first head long expect ls
      else if evt.seq ≠ expect then .error (.order evt.seq expect)
      else if evt.seq < head then
        if evt.sig = [] then .error (.unsignedRecord evt.seq)
        else
          match marshalJSON (unsigned evt) with
          | .error e => .error (.marshal e)
          | .ok b =>
            match copyRecords sha256 first head long (expect + 1) ls with
            | .error e => .error e
            | .ok c => .ok { c with content := b ++ newline :: c.content }
      else if evt.type ≠ eventSystemWitnessed ∨ evt.sig = [] then .error (.withoutHead evt.seq)
      else .ok ⟨l.text ++ [newline], l.offset + l.size, entryHash sha256 evt⟩

section
variable (sha256 : Bytes → Bytes)

def writeSegment (t : Bytes) (first head : Nat) : Except SealError SegmentCopy :=
  copyRecords sha256 first head (scan maxEventLineBytes t).2 first (scan maxEventLineBytes t).1

/-! ### The steps on the files -/

inductive FsOp
  | writeTemp (content : Bytes)
  | publishSegment (seg : Segment)
  | publishTail (t : Bytes)
  deriving DecidableEq, Repr

/-- A rename takes the temporary file's place and replaces a file of the same name. -/
def FsOp.apply (d : Dir) : FsOp → Dir
  | .writeTemp content => { d with temps := content :: d.temps }
  | .publishSegment seg =>
    { d with
      temps := d.temps.erase seg.content
      segments := d.segments.filter (fun s => s.name ≠ seg.name) ++ [seg] }
  | .publishTail t => { d with temps := d.temps.erase t, tail := some t }

structure SealPlan where
  seg : Segment
  tail : Bytes
  headHash : Bytes
  deriving DecidableEq, Repr

def SealPlan.steps (plan : SealPlan) : List FsOp :=
  [.writeTemp plan.seg.content, .publishSegment plan.seg, .writeTemp plan.tail,
    .publishTail plan.tail]

/-- The checks of `Seal` and the segment it would write. -/
def planSeal (l : LedgerState) (d : Dir) (head : Nat) : Except SealError SealPlan :=
  match l.frozenReason with
  | some r => .error (.frozen r)
  | none =>
    if l.closed then .error .closed
    else
      match l.sealErr with
      | some e => .error (.recoveryRequired e)
      | none =>
        if l.lastSeq < head then .error (.beyondLast head l.lastSeq)
        else if h : head ≤ l.sealedSeq then .error (.alreadySealed head l.sealedSeq)
        else
          match d.tail with
          | none => .error .noTail
          | some t =>
            match writeSegment sha256 t (l.sealedSeq + 1) head with
            | .error e => .error e
            | .ok c =>
              .ok ⟨⟨l.sealedSeq + 1, head, c.content, false, Nat.succ_pos _, Nat.lt_of_not_le h⟩,
                t.drop c.afterHead, c.headHash⟩

def sealed (l : LedgerState) (plan : SealPlan) : LedgerState := { l with
    sealedSeq := plan.seg.last
    sealedHash := plan.headHash
    segments := l.segments ++ [plan.seg] }

inductive SealIo
  | fine
  | early (e : SealError)
  | late (e : SealFault)
  deriving DecidableEq, Repr

/-- The steps done when a late failure strikes; the temporary file of the tail is
removed again unless it has been renamed. -/
def SealFault.done (plan : SealPlan) : SealFault → List FsOp
  | .syncTailDir | .reopen => plan.steps
  | _ => plan.steps.take 2

/-- A refused seal has removed its temporary file; a failure past the rename of the
segment asks for recovery. -/
def LedgerState.seal (l : LedgerState) (d : Dir) (head : Nat) (io : SealIo) :
    Except SealError (Option SealFault) × LedgerState × Dir :=
  match planSeal sha256 l d head with
  | .error e => (.error e, l, d)
  | .ok plan =>
    match io with
    | .early e => (.error e, l, d)
    | .late e => (.ok (some e), { l with sealErr := some e }, (e.done plan).foldl FsOp.apply d)
    | .fine => (.ok none, sealed l plan, plan.steps.foldl FsOp.apply d)

end

end AiiOs.Ledger
