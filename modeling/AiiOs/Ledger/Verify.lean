import AiiOs.Ledger.Stream

/-! internal/ledger: `verifyChain`, the walk that proves the record, with the hashes
it keeps since the last attested record (`recordsSince`). -/

namespace AiiOs.Ledger
open Lib

/-- What the record rests on: SHA-256, the check of an ML-DSA signature, and the
reading of an RFC 3339 time as an instant. -/
structure Primitives where
  sha256 : Bytes → Bytes
  verify : Bytes → Bytes → Bytes → Bool
  parseTime : Bytes → Option Int

def sigAlg : String := "ML-DSA-87"

def publicKeyFingerprint (p : Primitives) (pubKey : Bytes) : Bytes :=
  Utf8.encode (hexEncode (p.sha256 pubKey))

def signatureInputGold (alg keyID entryHash : Bytes) : Bytes :=
  bytesOf "AII-LEDGER-LINE-SIGNATURE-GOLD\n" ++ (bytesOf "artifact_kind:aii.ledger.line\n" ++
    (bytesOf "canonicalization:aii-canonical-json\n" ++ (bytesOf "suite_id:aii-pq-mldsa87\n" ++
      (bytesOf "role:identity\n" ++ (bytesOf "alg:" ++ (alg ++ (bytesOf "\nkey_id:" ++
        (keyID ++ (bytesOf "\nentry_sha256:" ++ (entryHash ++ bytesOf "\n"))))))))))

inductive SignatureError
  | unsigned
  | encoding
  | verification
  deriving DecidableEq, Repr

def decodeSig (sig : Bytes) : Option Bytes := (Utf8.decode? sig).bind base64Decode

def verifyEventSignature (p : Primitives) (evt : Event) (pubKey : Bytes) : Except SignatureError Unit :=
  if evt.sig = [] then .error .unsigned
  else
    match decodeSig evt.sig with
    | none => .error .encoding
    | some sig =>
      if p.verify pubKey (signatureInputGold (bytesOf sigAlg) (publicKeyFingerprint p pubKey)
          (entryHash p.sha256 evt)) sig then .ok ()
      else .error .verification

/-! ### Hashes kept for late heads -/

structure RecordsSince where
  first : Nat
  sums : List Bytes
  deriving DecidableEq, Repr

def RecordsSince.hashAt (w : RecordsSince) (seq : Nat) : Option Bytes := if seq < w.first then none
  else (w.sums[seq - w.first]?).map fun sum => Utf8.encode (hexEncode sum)

def RecordsSince.keep (w : RecordsSince) (seq : Nat) (sum : Bytes) : RecordsSince :=
  ⟨if w.sums = [] then seq else w.first, w.sums ++ [sum]⟩

def RecordsSince.forget (w : RecordsSince) (through : Nat) : RecordsSince :=
  if w.sums = [] ∨ through < w.first then w
  else if through - w.first + 1 < w.sums.length then
    ⟨through + 1, w.sums.drop (through - w.first + 1)⟩
  else ⟨w.first, []⟩

/-! ### The walk -/

/-- A verifier of witness heads with state `τ`: the record it attests up to and
the error, if any; `keyUnknown` tells `ErrWitnessKeyUnknown` apart. -/
structure HeadVerifier (τ ε : Type) where
  verifyHead : τ → Event → (Nat → Option Bytes) → τ × Nat × Option ε
  keyUnknown : ε → Bool

structure Boundary where
  seq : Nat
  hash : Bytes
  deriving DecidableEq, Repr

inductive Requirement (ε : Type)
  | seqMismatch (expected observed : Nat)
  | prevMismatch (expected observed : Bytes)
  | contentMismatch (expected observed : Bytes)
  | sealedWithoutWitness
  | signature (e : SignatureError)
  | unsignedRecord
  | witnessHead (e : ε)
  | walk (e : RecordError)
  deriving DecidableEq, Repr

structure VerifyFailure (ε : Type) where
  requirement : Requirement ε
  seq : Nat
  container : Container
  nextSeq : Nat
  proved : Boundary
  traversed : Boundary
  deriving DecidableEq, Repr

inductive VerifyError (ε ψ : Type)
  | visit (e : ψ)
  | failure (f : VerifyFailure ε)
  deriving DecidableEq, Repr

structure ChainState (τ ν : Type) where
  expectedPrev : Bytes
  expectedSeq : Nat
  proved : Boundary
  traversed : Boundary
  since : RecordsSince
  n : Nat
  heads : τ
  visited : ν

section
variable {τ ε ν ψ : Type} (p : Primitives) (pubKey : Bytes) (heads : Option (HeadVerifier τ ε))
  (visit : ν → Event → Except ψ ν)

section
variable (s : ChainState τ ν) (evt : Event)

def refuse (requirement : Requirement ε) : VerifyError ε ψ :=
  .failure ⟨requirement, evt.seq, evt.container, 0, s.proved, s.traversed⟩

def proveRecord (traversed : Boundary) : Except (VerifyError ε ψ) (ChainState τ ν) :=
  let s := { s with traversed := traversed }
  if evt.sealed ∧ heads.isNone then .error (refuse s evt .sealedWithoutWitness)
  else if evt.sig ≠ [] then
    match verifyEventSignature p evt pubKey with
    | .error e => .error (refuse s evt (.signature e))
    | .ok () => .ok { s with proved := traversed }
  else if !evt.sealed then .error (refuse s evt .unsignedRecord)
  else .ok s

/-- A witness head; in the tail, a head under an unknown key is let through. -/
def proveHead : Except (VerifyError ε ψ) (ChainState τ ν) := match heads with
  | none => .ok s
  | some hv =>
    if evt.type ≠ eventSystemWitnessed then .ok s
    else
      match hv.verifyHead s.heads evt s.since.hashAt with
      | (h, attested, none) => .ok { s with heads := h, since := s.since.forget attested }
      | (h, attested, some e) =>
        if !evt.sealed ∧ hv.keyUnknown e then
          .ok { s with heads := h, since := s.since.forget attested }
        else .error (refuse s evt (.witnessHead e))

def verifyRecord : Except (VerifyError ε ψ) (ChainState τ ν) := do
  let s := { s with expectedSeq := s.expectedSeq + 1 }
  if evt.seq ≠ s.expectedSeq then
    .error (refuse s { evt with seq := s.expectedSeq } (.seqMismatch s.expectedSeq evt.seq))
  else if evt.prev ≠ s.expectedPrev then
    .error (refuse s evt (.prevMismatch s.expectedPrev evt.prev))
  else if contentHash p.sha256 evt.payload ≠ evt.content then
    .error (refuse s evt (.contentMismatch evt.content (contentHash p.sha256 evt.payload)))
  else
    let entryHash := entryHash p.sha256 evt
    let s ← proveRecord p pubKey heads s evt ⟨evt.seq, entryHash⟩
    let s ← proveHead heads s evt
    match visit s.visited evt with
    | .error e => .error (.visit e)
    | .ok v =>
      let since := if heads.isSome then s.since.keep evt.seq (p.sha256 (entryBytes evt)) else s.since
      .ok { s with expectedPrev := entryHash, since := since, n := s.n + 1, visited := v }

end

def ChainState.init (h : τ) (v : ν) : ChainState τ ν := ⟨[], 0, ⟨0, []⟩, ⟨0, []⟩, ⟨0, []⟩, 0, h, v⟩

def verifyChain (source : List Event × Option RecordError) (h : τ) (v : ν) :
    Except (VerifyError ε ψ) (ChainState τ ν) := do
  let s ← source.1.foldlM (verifyRecord p pubKey heads visit) (.init h v)
  match source.2 with
  | none => .ok s
  | some e => .error (.failure ⟨.walk e, 0, .none, s.expectedSeq + 1, s.proved, s.traversed⟩)

end

end AiiOs.Ledger
