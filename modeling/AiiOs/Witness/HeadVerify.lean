import AiiOs.Ledger.Verify

/-! internal/witness: `HeadVerifier`, which checks the receipt each witness head
carries under the persisted witness keys. -/

namespace AiiOs.Witness
open Lib Lib.Json AiiOs.Ledger

structure PublicKeyEnvelope where
  notBefore : Bytes
  expiresAt : Bytes
  deriving DecidableEq, Repr

inductive WindowError
  | unparseable
  | outsideWindow
  deriving DecidableEq, Repr

def afterNotBefore (parseTime : Bytes → Option Int) (env : PublicKeyEnvelope) (moment : Int) :
    Except WindowError Unit :=
  if env.notBefore = [] then .ok ()
  else
    match parseTime env.notBefore with
    | none => .error .unparseable
    | some nb => if moment < nb then .error .outsideWindow else .ok ()

def validWindow (parseTime : Bytes → Option Int) (env : PublicKeyEnvelope) (moment : Int) :
    Except WindowError Unit := do
  afterNotBefore parseTime env moment
  if env.expiresAt = [] then .ok ()
  else
    match parseTime env.expiresAt with
    | none => .error .unparseable
    | some exp => if exp ≤ moment then .error .outsideWindow else .ok ()

/-- A persisted witness key; `notBefore` is none where the manifest sets none. -/
structure WitnessKeyMaterial where
  keyID : Bytes
  publicKey : Bytes
  notBefore : Option Int
  expiresAt : Int
  envelope : PublicKeyEnvelope
  deriving DecidableEq, Repr

abbrev Keys := Bytes → Option WitnessKeyMaterial

/-! ### The payload of a head -/

structure HeadPayload where
  receipt : List Char
  beforeRewrap : List Char

def headPayload : StructType HeadPayload where
  names := [charsOf "receipt", charsOf "receipt_before_rewrap"]
  strict := false
  store w name m := if name = charsOf "receipt" then some { w with receipt := m.raw }
    else some { w with beforeRewrap := m.raw }

structure HeadReceipt where
  identityID : Bytes
  previousWitnessedLedgerOrdinal : Int
  previousWitnessedLedgerHash : Bytes
  ledgerOrdinal : Int
  ledgerHash : Bytes
  witnessedAt : Bytes
  witnessKeyID : Bytes
  witnessSigB64 : List Char
  deriving DecidableEq, Repr

/-- A string field, kept as its bytes; `null` leaves it as it is. -/
def storeBytes (old : Bytes) : Value → Option Bytes
  | .str s => some (Utf8.encode s)
  | .null => some old
  | _ => none

def headReceipt : StructType HeadReceipt where
  names := [charsOf "identity_id", charsOf "previous_witnessed_ledger_ordinal",
    charsOf "previous_witnessed_ledger_hash", charsOf "ledger_ordinal", charsOf "ledger_hash",
    charsOf "witnessed_at", charsOf "witness_key_id", charsOf "witness_sig_b64"]
  strict := true
  store r name m := if name = charsOf "identity_id" then
      (storeBytes r.identityID m.value).map fun s => { r with identityID := s }
    else if name = charsOf "previous_witnessed_ledger_ordinal" then
      (storeInt64 r.previousWitnessedLedgerOrdinal m.value).map fun i =>
        { r with previousWitnessedLedgerOrdinal := i }
    else if name = charsOf "previous_witnessed_ledger_hash" then
      (storeBytes r.previousWitnessedLedgerHash m.value).map fun s =>
        { r with previousWitnessedLedgerHash := s }
    else if name = charsOf "ledger_ordinal" then
      (storeInt64 r.ledgerOrdinal m.value).map fun i => { r with ledgerOrdinal := i }
    else if name = charsOf "ledger_hash" then
      (storeBytes r.ledgerHash m.value).map fun s => { r with ledgerHash := s }
    else if name = charsOf "witnessed_at" then
      (storeBytes r.witnessedAt m.value).map fun s => { r with witnessedAt := s }
    else if name = charsOf "witness_key_id" then
      (storeBytes r.witnessKeyID m.value).map fun s => { r with witnessKeyID := s }
    else (storeString r.witnessSigB64 m.value).map fun s => { r with witnessSigB64 := s }

def receiptSignatureInput (r : HeadReceipt) : Bytes :=
  bytesOf "AIII-WITNESS-RECEIPT\nidentity_id:" ++ (r.identityID ++
    (bytesOf "\nprevious_witnessed_ledger_ordinal:" ++
      (Utf8.encode (decimalInt r.previousWitnessedLedgerOrdinal) ++
        (bytesOf "\nprevious_witnessed_ledger_hash:" ++ (r.previousWitnessedLedgerHash ++
          (bytesOf "\nledger_ordinal:" ++ (Utf8.encode (decimalInt r.ledgerOrdinal) ++
            (bytesOf "\nledger_hash:" ++ (r.ledgerHash ++
              (bytesOf "\nwitnessed_at:" ++ (r.witnessedAt ++ bytesOf "\n")))))))))))

inductive HeadError
  | notHead (seq : Nat) (type : Bytes)
  | payload (seq : Nat)
  | noReceipt (seq : Nat)
  | receipt (seq : Nat)
  | hashBefore (seq : Nat) (attested found : Bytes)
  | lateCloses (seq : Nat) (ordinal : Int)
  | ordinal (seq : Nat) (ordinal previous : Int)
  | hashNotAtHand (seq : Nat) (ordinal : Int)
  | hashLate (seq : Nat) (ordinal : Int) (attested found : Bytes)
  | identity (seq : Nat) (named earlier : Bytes)
  | continues (seq : Nat) (ordinal : Int) (hash : Bytes) (previous : Int) (previousHash : Bytes)
  | keyUnknown (seq : Nat) (keyID : Bytes)
  | witnessedAt (seq : Nat)
  | beforeKey (seq : Nat) (keyID : Bytes)
  | afterKey (seq : Nat) (keyID : Bytes)
  | outsideEnvelope (seq : Nat) (keyID : Bytes) (e : WindowError)
  | signatureEncoding (seq : Nat)
  | signature (seq : Nat) (keyID : Bytes)
  deriving DecidableEq, Repr

/-- What a head carries: its receipt, or the note of a receipt from before a re-wrap. -/
inductive Carried
  | receipt (r : HeadReceipt)
  | footnote
  deriving DecidableEq, Repr

def readCarried (evt : Event) : Except HeadError Carried :=
  match (Utf8.decode? evt.payload).bind (headPayload.unmarshal ⟨[], []⟩) with
  | none => .error (.payload evt.seq)
  | some payload =>
    if payload.receipt = [] then
      if payload.beforeRewrap = [] then .error (.noReceipt evt.seq) else .ok .footnote
    else
      match headReceipt.decode ⟨[], 0, [], 0, [], [], [], []⟩ payload.receipt with
      | none => .error (.receipt evt.seq)
      | some r => .ok (.receipt r)

/-! ### The verifier -/

structure HeadState where
  prevOrdinal : Int
  prevHash : Bytes
  identityID : Bytes
  verified : Nat
  unverified : Nat
  footnotes : Nat
  attestedOrdinal : Int
  attestedHash : Bytes
  deriving DecidableEq, Repr

def zeroLedgerHash : Bytes := Utf8.encode (List.replicate 64 '0')

def HeadState.init : HeadState := ⟨-1, zeroLedgerHash, [], 0, 0, 0, -1, []⟩

def HeadState.chainAt (h : HeadState) : Nat := h.prevOrdinal.toNat

def checkPlace (h : HeadState) (evt : Event) (hashAt : Nat → Option Bytes) (r : HeadReceipt) :
    Except HeadError Unit :=
  if 0 < evt.seq ∧ r.ledgerOrdinal = evt.seq - 1 then
    if r.ledgerHash ≠ evt.prev then .error (.hashBefore evt.seq r.ledgerHash evt.prev) else .ok ()
  else if evt.closing then .error (.lateCloses evt.seq r.ledgerOrdinal)
  else if r.ledgerOrdinal ≤ h.prevOrdinal ∨ evt.seq ≤ r.ledgerOrdinal then
    .error (.ordinal evt.seq r.ledgerOrdinal h.prevOrdinal)
  else
    match hashAt r.ledgerOrdinal.toNat with
    | none => .error (.hashNotAtHand evt.seq r.ledgerOrdinal)
    | some hash =>
      if r.ledgerHash ≠ hash then .error (.hashLate evt.seq r.ledgerOrdinal r.ledgerHash hash)
      else .ok ()

def checkSignature (p : Primitives) (seq : Nat) (km : WitnessKeyMaterial) (r : HeadReceipt) :
    Except HeadError Unit :=
  match p.parseTime r.witnessedAt with
  | none => .error (.witnessedAt seq)
  | some moment =>
    if km.notBefore.any fun nb => moment < nb then .error (.beforeKey seq km.keyID)
    else if km.expiresAt ≤ moment then .error (.afterKey seq km.keyID)
    else
      match validWindow p.parseTime km.envelope moment with
      | .error e => .error (.outsideEnvelope seq km.keyID e)
      | .ok () =>
        match base64Decode r.witnessSigB64 with
        | none => .error (.signatureEncoding seq)
        | some sig =>
          if p.verify km.publicKey (receiptSignatureInput r) sig then .ok ()
          else .error (.signature seq km.keyID)

section
variable (p : Primitives) (keys : Keys)

def verifyReceipt (h : HeadState) (evt : Event)
    (hashAt : Nat → Option Bytes) (r : HeadReceipt) : HeadState × Option HeadError :=
  match checkPlace h evt hashAt r with
  | .error e => (h, some e)
  | .ok () =>
    if h.identityID ≠ [] ∧ r.identityID ≠ h.identityID then
      (h, some (.identity evt.seq r.identityID h.identityID))
    else
      let h := { h with identityID := if h.identityID = [] then r.identityID else h.identityID }
      if r.previousWitnessedLedgerOrdinal ≠ h.prevOrdinal ∨
          r.previousWitnessedLedgerHash ≠ h.prevHash then
        (h, some (.continues evt.seq r.previousWitnessedLedgerOrdinal r.previousWitnessedLedgerHash
          h.prevOrdinal h.prevHash))
      else
        let h := { h with prevOrdinal := r.ledgerOrdinal, prevHash := r.ledgerHash }
        match keys r.witnessKeyID with
        | none =>
          ({ h with unverified := if evt.sealed then h.unverified else h.unverified + 1 },
            some (.keyUnknown evt.seq r.witnessKeyID))
        | some km =>
          match checkSignature p evt.seq km r with
          | .error e => (h, some e)
          | .ok () =>
            ({ h with
                verified := h.verified + 1
                attestedOrdinal := r.ledgerOrdinal
                attestedHash := r.ledgerHash }, none)

def verifyHead (h : HeadState) (evt : Event)
    (hashAt : Nat → Option Bytes) : HeadState × Nat × Option HeadError :=
  if evt.type ≠ eventSystemWitnessed then (h, h.chainAt, some (.notHead evt.seq evt.type))
  else
    match readCarried evt with
    | .error e => (h, h.chainAt, some e)
    | .ok .footnote => ({ h with footnotes := h.footnotes + 1 }, h.chainAt, none)
    | .ok (.receipt r) =>
      match verifyReceipt p keys h evt hashAt r with
      | (h, err) => (h, h.chainAt, err)

def HeadError.isKeyUnknown : HeadError → Bool
  | .keyUnknown .. => true
  | _ => false

def headVerifier : HeadVerifier HeadState HeadError where
  verifyHead := verifyHead p keys
  keyUnknown := HeadError.isKeyUnknown

end

end AiiOs.Witness
