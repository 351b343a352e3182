import AiiOs.Ledger.Verify
import AiiOs.Ledger.Open

/-! internal/ledger: `AppendPrepared` with the check of the tail it makes first
(`readTailEvents`, `verifyTailBeforeAppend`). What the file system does to the write
is an argument. -/

namespace AiiOs.Ledger
open Lib Lib.Json AiiOs.CanonicalJson

/-! ### The end of the tail -/

def tailCheckDepth : Nat := 8

def dropFirstLine (buf : Bytes) : Bytes :=
  if newline ∈ buf then (buf.dropWhile (· ≠ newline)).drop 1 else buf

/-- The end of the file in a window that doubles until it holds enough lines; it has
reached the whole file long before the fuel runs out. -/
def tailWindow (t : Bytes) (k : Nat) : Nat → Nat → Bytes
  | 0, _ => t
  | fuel + 1, win =>
    if t.length ≤ win then t
    else
      let buf := t.drop (t.length - win)
      if k + 2 ≤ buf.count newline then dropFirstLine buf else tailWindow t k fuel (win * 2)

/-- The newline that each piece keeps here is trimmed away with the other space. -/
def readTailEvents (t : Bytes) (k : Nat) : Except EventError (List Event) :=
  let lines := ((splitLines (tailWindow t k t.length (512 * 1024))).map trimSpace).filter (· ≠ [])
  (lines.drop (lines.length - (k + 1))).mapM decodeEvent

inductive TailFault
  | unreadable
  | parse (e : EventError)
  | truncated (lastSeq sealedSeq : Nat)
  | sealedLink (seq : Nat)
  | notConsecutive (seq prev : Nat)
  | prevLink (seq : Nat)
  | content (seq : Nat)
  | signature (seq : Nat) (e : SignatureError)
  | endsAt (seq lastSeq : Nat)
  | stateDiverged
  deriving DecidableEq, Repr

/-- Sequence numbers are 64 bits wide. -/
def nextSeq (n : Nat) : Nat := (n + 1) % 2 ^ 64

section
variable (p : Primitives)

def checkTailEvent (l : LedgerState) (pubKey : Bytes) (before : Option Event) (evt : Event) :
    Except TailFault Unit := do
  match before with
  | none =>
    if 0 < l.sealedSeq ∧ evt.seq = nextSeq l.sealedSeq ∧ evt.prev ≠ l.sealedHash then
      .error (.sealedLink evt.seq)
  | some b =>
    if evt.seq ≠ nextSeq b.seq then .error (.notConsecutive evt.seq b.seq)
    if evt.prev ≠ entryHash p.sha256 b then .error (.prevLink evt.seq)
  if contentHash p.sha256 evt.payload ≠ evt.content then .error (.content evt.seq)
  match verifyEventSignature p evt pubKey with
  | .error e => .error (.signature evt.seq e)
  | .ok () => .ok ()

def checkTailEvents (l : LedgerState) (pubKey : Bytes) : Option Event → List Event → Except TailFault Unit
  | none, [] =>
    if l.lastSeq ≠ l.sealedSeq ∨ l.lastHash ≠ l.sealedHash then
      .error (.truncated l.lastSeq l.sealedSeq)
    else .ok ()
  | some z, [] =>
    if z.seq ≠ l.lastSeq then .error (.endsAt z.seq l.lastSeq)
    else if l.lastHash ≠ entryHash p.sha256 z then .error .stateDiverged
    else .ok ()
  | before, evt :: evts => do
    checkTailEvent p l pubKey before evt
    checkTailEvents l pubKey (some evt) evts

def verifyTailBeforeAppend (l : LedgerState) (t : Bytes) (pubKey : Bytes) : Except TailFault Unit :=
  match readTailEvents t tailCheckDepth with
  | .error e => .error (.parse e)
  | .ok evts => checkTailEvents p l pubKey none evts

end

/-! ### The event -/

/-- A payload in its canonical form; the zero value is empty. -/
structure PreparedPayload where
  raw : Bytes
  canonical : raw = [] ∨ canonicalizeV1 raw = .ok raw

inductive PayloadError
  | notObject
  | modelIDNotString
  deriving DecidableEq, Repr

def payloadModelID (payload : Bytes) : Except PayloadError (Option (List Char)) :=
  match (Utf8.decode? payload).bind readFirst with
  | some (.inr ms, rest) =>
    if rest.all isSpace then
      match (ms.filter fun m => m.key = "model_id".toList).getLast? with
      | none => .ok none
      | some m =>
        match storeString [] m.value with
        | some s => .ok (some s)
        | none => .error .modelIDNotString
    else .error .notObject
  | _ => .error .notObject

structure KeyPair where
  publicKey : Bytes
  sign : Bytes → Option Bytes

structure AppendRequest where
  eventType : Bytes
  ring : Int64
  payload : PreparedPayload
  now : Time

inductive AppendStage
  | write
  | newline
  | flush
  | sync
  deriving DecidableEq, Repr

inductive AppendError
  | frozen (r : FrozenReason)
  | closed
  | recoveryRequired (e : SealFault)
  | tailIntegrity (f : TailFault)
  | payload (e : PayloadError)
  | signing
  | marshal (e : EventError)
  | tooLarge (eventType : Bytes) (size : Nat)
  | uncertain (stage : AppendStage)
  deriving DecidableEq, Repr

section
variable (p : Primitives) (kp : KeyPair)

section
variable (l : LedgerState)

def unsignedEvent (req : AppendRequest) : Event :=
  let seq := nextSeq l.lastSeq
  { seq := seq
    prev := if 1 < seq then l.lastHash else []
    timestamp := Utf8.encode (rfc3339Nano req.now)
    type := req.eventType
    ring := req.ring.toInt
    content := contentHash p.sha256 req.payload.raw
    payload := req.payload.raw
    sig := []
    sealed := false
    closing := false
    container := .none }

def signB64 (message : Bytes) : Option Bytes :=
  (kp.sign message).map fun sig => Utf8.encode (base64Encode sig)

def newEvent (req : AppendRequest) : Except AppendError (Event × Bytes) :=
  match payloadModelID req.payload.raw with
  | .error e => .error (.payload e)
  | .ok _ =>
    let evt := unsignedEvent p l req
    match signB64 kp (signatureInputGold (bytesOf sigAlg) (publicKeyFingerprint p kp.publicKey)
        (entryHash p.sha256 evt)) with
    | none => .error .signing
    | some sig =>
      let evt := { evt with sig := sig }
      match marshalJSON evt with
      | .error e => .error (.marshal e)
      | .ok line =>
        if maxEventLineBytes < line.length then .error (.tooLarge req.eventType line.length)
        else .ok (evt, line)

/-- What the file system does to an append: nothing, a failure to read the tail, or one
while it writes, with so many bytes of the line left in the file. -/
inductive AppendIo
  | fine
  | readFails
  | fails (stage : AppendStage) (kept : Nat)
  deriving DecidableEq, Repr

def appendRefusal : Option AppendError :=
  match l.frozenReason with
  | some r => some (.frozen r)
  | none => if l.closed then some .closed else l.sealErr.map .recoveryRequired

def checkTail (d : Dir) (io : AppendIo) : Except TailFault Unit :=
  if io = .readFails then .error .unreadable
  else verifyTailBeforeAppend p l (d.tail.getD []) kp.publicKey

def writeTail (d : Dir) (bs : Bytes) : Dir := { d with tail := some (d.tail.getD [] ++ bs) }

def uncertainAppend : LedgerState :=
  { l with frozenReason := l.frozenReason.or (some .appendUncertain) }

def appendPrepared (d : Dir) (req : AppendRequest) (io : AppendIo) :
    Except AppendError Event × LedgerState × Dir :=
  match appendRefusal l with
  | some e => (.error e, l, d)
  | none =>
    match checkTail p kp l d io with
    | .error f => (.error (.tailIntegrity f), { l with frozenReason := some .tailIntegrity }, d)
    | .ok () =>
      match newEvent p kp l req with
      | .error e => (.error e, l, d)
      | .ok (evt, line) =>
        match io with
        | .fails stage kept =>
          (.error (.uncertain stage), uncertainAppend l, writeTail d ((line ++ [newline]).take kept))
        | _ =>
          (.ok evt, { l with lastSeq := evt.seq, lastHash := entryHash p.sha256 evt },
            writeTail d (line ++ [newline]))

end

end

end AiiOs.Ledger
