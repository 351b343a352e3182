import AiiOs.Ledger.Stream

/-! internal/ledger: opening the record (`openLedger` with `reconcileTail` and
`readChainState`). The directory it leaves behind is part of its result. -/

namespace AiiOs.Ledger
open Lib

inductive OpenError
  | segments (e : RecordError)
  | segment (e : RecordError)
  | interruptedSeal (e : RecordError)
  | unterminated (size : Nat)
  | malformed (e : EventError)
  | discontinued (seq sealedSeq : Nat)
  deriving DecidableEq, Repr

inductive FrozenReason
  | tailIntegrity
  | appendUncertain
  | reported (reason : Bytes)
  deriving DecidableEq, Repr

inductive SealFault
  | syncDir
  | openTail
  | syncTail
  | closeTail
  | writeTail
  | renameTail
  | syncTailDir
  | reopen
  deriving DecidableEq, Repr

@[ext] structure LedgerState where
  lastSeq : Nat
  lastHash : Bytes
  sealedSeq : Nat
  sealedHash : Bytes
  segments : List Segment
  sealErr : Option SealFault
  frozenReason : Option FrozenReason
  closed : Bool
  deriving DecidableEq, Repr

def sweepDebris (d : Dir) : Dir := { d with temps := [] }

section
variable (sha256 : Bytes → Bytes)

def segmentEnd (seg : Segment) : Except RecordError (Nat × Bytes) :=
  match (streamSegment seg).err with
  | some e => .error e
  | none =>
    match (streamSegment seg).events.getLast? with
    | none => .ok (0, [])
    | some e => .ok (e.seq, entryHash sha256 e)

def firstRecord (t : Bytes) : Except RecordError (Option Event) :=
  match scan maxEventLineBytes t with
  | ([], true) => .error (.tooLong .tail)
  | ([], false) => .ok none
  | (l :: _, _) =>
    match decodeEvent l.text with
    | .error e => .error (.malformed .tail l.number e)
    | .ok e => .ok (some e)

/-- Where the overlap ends in the tail, if the tail reaches its end. -/
def overlapEnd (sha256 : Bytes → Bytes) (err : Option RecordError) :
    OverlapChecker → List Line → Except RecordError (Option Nat)
  | _, [] =>
    match err with
    | some e => .error e
    | none => .ok none
  | oc, l :: ls =>
    match decodeEvent l.text with
    | .error e => .error (.malformed .tail l.number e)
    | .ok e =>
      match oc.check sha256 e with
      | .error e => .error e
      | .ok (true, _) => .ok (some (l.offset + l.size))
      | .ok (false, oc) => overlapEnd sha256 err oc ls

def reconcileTail (newest : Segment) (t : Bytes) : Except RecordError Bytes := do
  match ← firstRecord t with
  | none => .ok t
  | some first =>
    if newest.last < first.seq then .ok t
    else if first.seq < newest.first then .error (.tailRepeats first.seq)
    else
      let oc ← newOverlapChecker newest first.seq
      let keepFrom ← overlapEnd sha256 (tailReadErr t) oc (scan maxEventLineBytes t).1
      .ok (t.drop (keepFrom.getD t.length))

def terminated (piece : Bytes) : Bool := piece.getLast? == some newline

/-- The pieces of the tail up to each newline; a line longer than the scanner takes
is read here all the same. -/
def readChainState (sha256 : Bytes → Bytes) : Bool → LedgerState → List Bytes → Except OpenError LedgerState
  | _, l, [] => .ok l
  | first, l, piece :: pieces =>
    if trimSpace piece = [] then readChainState sha256 first l pieces
    else if !terminated piece then .error (.unterminated piece.length)
    else
      match decodeEvent (trimSpace piece) with
      | .error e => .error (.malformed e)
      | .ok evt =>
        if first ∧ 0 < l.sealedSeq ∧ (evt.seq ≠ l.sealedSeq + 1 ∨ evt.prev ≠ l.sealedHash) then
          .error (.discontinued evt.seq l.sealedSeq)
        else
          readChainState sha256 false
            { l with lastSeq := evt.seq, lastHash := entryHash sha256 evt } pieces

def openSealed (tail : Option Bytes) (segs : List Segment) : Except OpenError (LedgerState × Bytes) :=
  let l : LedgerState := ⟨0, [], 0, [], [], none, none, false⟩
  match segs.getLast? with
  | none => .ok (l, tail.getD [])
  | some newest =>
    match segmentEnd sha256 newest with
    | .error e => .error (.segment e)
    | .ok (seq, hash) =>
      let l := { l with
        sealedSeq := seq, sealedHash := hash, segments := segs, lastSeq := seq, lastHash := hash }
      match tail with
      | none => .ok (l, [])
      | some t =>
        match reconcileTail sha256 newest t with
        | .error e => .error (.interruptedSeal e)
        | .ok t => .ok (l, t)

def openLedger (d : Dir) : Except OpenError (LedgerState × Dir) := let d := sweepDebris d
  match listSegments d with
  | .error e => .error (.segments e)
  | .ok segs =>
    match openSealed sha256 d.tail segs with
    | .error e => .error e
    | .ok (l, t) =>
      match readChainState sha256 true l (splitLines t) with
      | .error e => .error e
      | .ok l => .ok (l, { d with tail := some t })

end

end AiiOs.Ledger
