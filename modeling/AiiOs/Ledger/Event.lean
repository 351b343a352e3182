import AiiOs.CanonicalJson.Canonicalize
import AiiOs.Lib.Json.Struct
import AiiOs.Lib.Json.Encoder

/-! internal/ledger: the event, the entry its hash covers and its line in the
record (`EntryBytes`, `MarshalJSON`, `UnmarshalJSON`, `decodeEvent`). -/

namespace AiiOs.Ledger
open Lib Lib.Json AiiOs.CanonicalJson

inductive Container
  | none
  | tail
  | segment (first last : Nat)
  deriving DecidableEq, Repr

structure Event where
  seq : Nat
  prev : Bytes
  timestamp : Bytes
  type : Bytes
  ring : Int
  content : Bytes
  payload : Bytes
  sig : Bytes
  sealed : Bool
  closing : Bool
  container : Container
  deriving DecidableEq, Repr

def eventSystemWitnessed : Bytes := bytesOf "system.witnessed"

/-! ### The stored form -/

def entryText (e : Event) : List Char := "\x7b\"content\":".toList ++ (encodeString e.content ++
    (",\"prev\":".toList ++ (encodeString e.prev ++ (",\"ring\":".toList ++ (decimalInt e.ring ++
        (",\"seq\":".toList ++ (decimal e.seq ++ (",\"ts\":".toList ++ (encodeString e.timestamp ++
            (",\"type\":".toList ++ (encodeString e.type ++ ['}'])))))))))))

def entryBytes (e : Event) : Bytes := Utf8.encode (entryText e)

def entryHash (sha256 : Bytes → Bytes) (e : Event) : Bytes :=
  Utf8.encode (hexEncode (sha256 (entryBytes e)))

def contentHash (sha256 : Bytes → Bytes) (payload : Bytes) : Bytes :=
  Utf8.encode (hexEncode (sha256 payload))

inductive EventError
  | noPayload
  | canonical (e : CanonicalError)
  | record
  | noEntryOrPayload
  | entry
  | entryForm
  | payloadObject
  | payloadForm
  deriving DecidableEq, Repr

def sigText (e : Event) : List Char :=
  if e.sig = [] then [] else ",\"sig\":".toList ++ encodeString e.sig

def marshalJSON (e : Event) : Except EventError Bytes := if e.payload = [] then .error .noPayload
  else .ok (Utf8.encode ("\x7b\"entry\":".toList ++ (entryText e ++ ",\"payload\":".toList)) ++
    (e.payload ++ Utf8.encode (sigText e ++ ['}'])))

/-! ### Reading it back -/

structure WireRecord where
  entry : List Char
  payload : List Char
  sig : List Char

def wireRecord : StructType WireRecord where
  names := ["entry".toList, "payload".toList, "sig".toList]
  strict := true
  store w name m := if name = "entry".toList then some { w with entry := m.raw }
    else if name = "payload".toList then some { w with payload := m.raw }
    else (storeString w.sig m.value).map fun s => { w with sig := s }

structure WireEntry where
  content : List Char
  prev : List Char
  ring : Int
  seq : Nat
  ts : List Char
  type : List Char

def wireEntry : StructType WireEntry where
  names := ["content".toList, "prev".toList, "ring".toList, "seq".toList, "ts".toList, "type".toList]
  strict := true
  store w name m :=
    if name = "content".toList then (storeString w.content m.value).map fun s => { w with content := s }
    else if name = "prev".toList then (storeString w.prev m.value).map fun s => { w with prev := s }
    else if name = "ring".toList then (storeInt64 w.ring m.value).map fun i => { w with ring := i }
    else if name = "seq".toList then (storeUint64 w.seq m.value).map fun n => { w with seq := n }
    else if name = "ts".toList then (storeString w.ts m.value).map fun s => { w with ts := s }
    else (storeString w.type m.value).map fun s => { w with type := s }

def eventOf (w : WireRecord) (en : WireEntry) : Event where
  seq := en.seq
  prev := Utf8.encode en.prev
  timestamp := Utf8.encode en.ts
  type := Utf8.encode en.type
  ring := en.ring
  content := Utf8.encode en.content
  payload := Utf8.encode w.payload
  sig := Utf8.encode w.sig
  sealed := false
  closing := false
  container := .none

def unmarshalJSON (raw : List Char) : Except EventError Event :=
  match wireRecord.decode ⟨[], [], []⟩ raw with
  | none => .error .record
  | some w =>
    if w.entry = [] ∨ w.payload = [] then .error .noEntryOrPayload
    else
      match wireEntry.decode ⟨[], [], 0, 0, [], []⟩ w.entry with
      | none => .error .entry
      | some en =>
        if entryText (eventOf w en) ≠ w.entry then .error .entryForm
        else if w.payload.head? ≠ some '{' then .error .payloadObject
        else
          match canonicalizeV1 (Utf8.encode w.payload) with
          | .error e => .error (.canonical e)
          | .ok canonical =>
            if canonical ≠ Utf8.encode w.payload then .error .payloadForm
            else .ok (eventOf w en)

/-- The line has passed `CanonicalizeV1`, so it is UTF-8. -/
def decodeEvent (raw : Bytes) : Except EventError Event := match canonicalizeV1 raw with
  | .error e => .error (.canonical e)
  | .ok _ =>
    match Utf8.decode? raw with
    | none => .error (.canonical .notUtf8)
    | some text => unmarshalJSON text

end AiiOs.Ledger
