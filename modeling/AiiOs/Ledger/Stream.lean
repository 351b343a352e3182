import AiiOs.Ledger.Codec

/-! internal/ledger: the files of the record and the walk over them (`listSegments`,
`streamSegment`, `overlapChecker`, `streamTail`, `streamLines`). A reader that drives
a callback is modelled by what it delivers and the error it ends in. -/

namespace AiiOs.Ledger
open Lib

def maxEventLineBytes : Nat := 32 * 2 ^ 20

/-- A segment file: the bounds its name carries, what it decompresses to, and
whether the decompression ends in an error. -/
structure Segment where
  first : Nat
  last : Nat
  content : Bytes
  damaged : Bool
  first_pos : 0 < first
  first_le : first ≤ last
  deriving DecidableEq, Repr

structure Dir where
  segments : List Segment
  tail : Option Bytes
  temps : List Bytes
  deriving DecidableEq, Repr

inductive RecordError
  | segmentBegins (first expected : Nat)
  | malformed (container : Container) (number : Nat) (e : EventError)
  | segmentFirst (container : Container) (seq : Nat)
  | segmentEmpty (container : Container)
  | segmentLast (container : Container) (seq : Nat)
  | segmentWithoutHead (container : Container) (seq : Nat)
  | segmentShort (container : Container) (seq : Nat)
  | segmentSkips (container : Container) (seq : Nat)
  | tailRepeats (seq : Nat)
  | tailOrder (seq expected : Nat)
  | tailDiffers (seq : Nat)
  | tailLeaves (seq : Nat)
  | damaged (container : Container)
  | tooLong (container : Container)
  | noTail
  deriving DecidableEq, Repr

structure Reading where
  event : Event
  line : Bytes
  number : Nat
  deriving DecidableEq, Repr

structure Walk where
  readings : List Reading
  err : Option RecordError
  deriving DecidableEq, Repr

def Walk.events (w : Walk) : List Event := w.readings.map Reading.event

def Walk.fail (e : RecordError) : Walk := ⟨[], some e⟩

def Walk.cons (r : Reading) (w : Walk) : Walk := ⟨r :: w.readings, w.err⟩

def Walk.andThen (w w' : Walk) : Walk :=
  if w.err = none then ⟨w.readings ++ w'.readings, w'.err⟩ else w

/-! ### Segments -/

section
variable (seg : Segment)

def Segment.name : Container := .segment seg.first seg.last

def segmentFiles (d : Dir) : List Segment := d.segments.insertionSort fun a b => a.first ≤ b.first

def checkRun : Nat → List Segment → Except RecordError Unit
  | _, [] => .ok ()
  | next, s :: segs =>
    if s.first ≠ next then .error (.segmentBegins s.first next) else checkRun (s.last + 1) segs

def listSegments (d : Dir) : Except RecordError (List Segment) :=
  (checkRun 1 (segmentFiles d)).map fun _ => segmentFiles d

def Segment.lines : List Line := (scan maxEventLineBytes seg.content).1

def Segment.readErr : Option RecordError :=
  if (scan maxEventLineBytes seg.content).2 then some (.tooLong seg.name)
  else if seg.damaged then some (.damaged seg.name)
  else none

def Segment.mark (e : Event) : Event :=
  { e with sealed := true, closing := e.seq == seg.last, container := seg.name }

def segmentClose : Option Event → Option RecordError
  | none => some (.segmentEmpty seg.name)
  | some last =>
    if last.seq ≠ seg.last then some (.segmentLast seg.name last.seq)
    else if last.type ≠ eventSystemWitnessed ∨ last.sig = [] then
      some (.segmentWithoutHead seg.name last.seq)
    else none

def segmentWalk (seg : Segment) : Option Event → List Line → Walk
  | last, [] => ⟨[], seg.readErr.or (segmentClose seg last)⟩
  | last, l :: ls =>
    match decodeEvent l.text with
    | .error e => .fail (.malformed seg.name l.number e)
    | .ok e =>
      if last = none ∧ e.seq ≠ seg.first then .fail (.segmentFirst seg.name e.seq)
      else .cons ⟨seg.mark e, l.text, l.number⟩ (segmentWalk seg (some (seg.mark e)) ls)

def streamSegment : Walk := segmentWalk seg none seg.lines

def streamSegments : List Segment → Walk
  | [] => ⟨[], none⟩
  | seg :: segs => (streamSegment seg).andThen (streamSegments segs)

/-! ### The overlap of an interrupted seal -/

structure OverlapChecker where
  seg : Segment
  lines : List Line
  next : Nat
  pending : Option Event

def readLines : List Line → Except RecordError (Option (Event × List Line))
  | [] =>
    match seg.readErr with
    | some e => .error e
    | none => .ok none
  | l :: ls =>
    match decodeEvent l.text with
    | .error e => .error (.malformed seg.name l.number e)
    | .ok e => .ok (some (e, ls))

def OverlapChecker.read (oc : OverlapChecker) : Except RecordError (Option (Event × OverlapChecker)) :=
  match oc.pending with
  | some e => .ok (some (e, { oc with pending := none }))
  | none =>
    match readLines oc.seg oc.lines with
    | .error e => .error e
    | .ok none => .ok none
    | .ok (some (e, ls)) => .ok (some (e, { oc with lines := ls }))

def seekOverlap (seg : Segment) (start : Nat) : List Line → Except RecordError OverlapChecker
  | [] =>
    match seg.readErr with
    | some e => .error e
    | none => .error (.segmentShort seg.name start)
  | l :: ls =>
    match decodeEvent l.text with
    | .error e => .error (.malformed seg.name l.number e)
    | .ok e =>
      if e.seq + 1 = start then .ok ⟨seg, ls, start, none⟩
      else if start ≤ e.seq then
        if e.seq = start then .ok ⟨seg, ls, start, some e⟩ else .error (.segmentSkips seg.name start)
      else seekOverlap seg start ls

def newOverlapChecker (start : Nat) : Except RecordError OverlapChecker :=
  seekOverlap seg start seg.lines

end

section
variable (sha256 : Bytes → Bytes)

def OverlapChecker.check (oc : OverlapChecker) (tail : Event) :
    Except RecordError (Bool × OverlapChecker) :=
  if tail.seq ≠ oc.next then .error (.tailOrder tail.seq oc.next)
  else
    match oc.read with
    | .error e => .error e
    | .ok none => .error (.segmentShort oc.seg.name tail.seq)
    | .ok (some (e, oc')) =>
      if e.seq ≠ tail.seq ∨ entryHash sha256 e ≠ entryHash sha256 tail then
        .error (.tailDiffers tail.seq)
      else .ok (tail.seq == oc.seg.last, { oc' with next := oc.next + 1 })

/-! ### The tail -/

def tailReadErr (t : Bytes) : Option RecordError :=
  if (scan maxEventLineBytes t).2 then some (.tooLong .tail) else none

def markTail (e : Event) : Event := { e with container := .tail }

/-- Where the walk over the tail stands: before its first record, inside the
overlap with the newest segment, or past it. -/
inductive TailState
  | start
  | overlap (oc : OverlapChecker)
  | beyond

def tailStep (newest : Option Segment) (st : TailState) (first : Bool)
    (evt : Event) : Except RecordError (Bool × TailState) :=
  match newest, st with
  | none, _ | _, .beyond => .ok (true, st)
  | some seg, .start =>
    if evt.seq ≤ seg.last then
      if !first ∨ evt.seq < seg.first then .error (.tailRepeats evt.seq)
      else
        match newOverlapChecker seg evt.seq with
        | .error e => .error e
        | .ok oc => finish (oc.check sha256 evt)
    else .ok (true, st)
  | some seg, .overlap oc =>
    if evt.seq ≤ seg.last then finish (oc.check sha256 evt) else .error (.tailLeaves evt.seq)
where
  finish : Except RecordError (Bool × OverlapChecker) → Except RecordError (Bool × TailState)
    | .error e => .error e
    | .ok (true, _) => .ok (false, .beyond)
    | .ok (false, oc) => .ok (false, .overlap oc)

def tailWalk (sha256 : Bytes → Bytes) (newest : Option Segment) (err : Option RecordError) :
    TailState → Bool → List Line → Walk
  | _, _, [] => ⟨[], err⟩
  | st, first, l :: ls =>
    match decodeEvent l.text with
    | .error e => .fail (.malformed .tail l.number e)
    | .ok e =>
      match tailStep sha256 newest st first e with
      | .error e => .fail e
      | .ok (false, st) => tailWalk sha256 newest err st false ls
      | .ok (true, st) =>
        .cons ⟨markTail e, l.text, l.number⟩ (tailWalk sha256 newest err st false ls)

def streamTail (t : Bytes) (newest : Option Segment) : Walk :=
  tailWalk sha256 newest (tailReadErr t) .start true (scan maxEventLineBytes t).1

/-- The walk over segments and tail; `tail` stands in for the file where it is given. -/
def streamLines (d : Dir) (tail : Option Bytes) : Walk := match listSegments d with
  | .error e => .fail e
  | .ok segs =>
    (streamSegments segs).andThen (match tail.or d.tail with
        | none => .fail .noTail
        | some t => streamTail sha256 t segs.getLast?)

def stream (d : Dir) (tail : Option Bytes) : List Event × Option RecordError :=
  ((streamLines sha256 d tail).events, (streamLines sha256 d tail).err)

end

end AiiOs.Ledger
