import AiiOs.Store.Schema
import AiiOs.Lib.Json.Fields

/-! internal/store: the payload structs of the events, as `json.Unmarshal` fills them.
Structs that several functions declare alike are given once. -/

namespace AiiOs.Store
open Lib Lib.Json

structure Settings where
  selfModelBudget : Nat
  operatorVoices : List Text
  historicalInteractions : Bool

/-- What the host supplies: `strconv.ParseFloat` as the rational its result denotes,
SQLite's `json_valid`, SHA-256, and the Unicode tables behind `strings.ToLower` and
`trigram.Words`; and the settings of the moment. -/
structure Host extends Settings where
  float64 : Text → Option Rat
  jsonValid : Bytes → Bool
  sha256 : Bytes → Bytes
  toLower : Text → Text
  isWord : Char → Bool
  lowerRune : Char → Char

def Host.under (h : Host) (settings : Settings) : Host := { h with toSettings := settings }

/-- A payload is UTF-8: the record holds it in its canonical form. -/
def unmarshal {σ : Type} (T : StructType σ) (zero : σ) (payload : Bytes) : Option σ :=
  (Utf8.decode? payload).bind (T.unmarshal zero)

/-! ### Beliefs -/

structure BeliefOrigin where
  kind : Text
  id : Text
  deriving DecidableEq, Repr

def beliefOrigin : StructType BeliefOrigin := structType false
    [("kind", field storeString (·.kind) fun p v => { p with kind := v }),
      ("id", field storeString (·.id) fun p v => { p with id := v })]

def storeOrigins (old : List BeliefOrigin) : Value → Option (List BeliefOrigin) :=
  storeSlice ⟨[], []⟩ beliefOrigin.value old

section
variable (float64 : Text → Option Rat)

def storeFloat (old : Rat) : Value → Option Rat
  | .num lit => float64 lit
  | .null => some old
  | _ => none

structure BeliefUpsertPayload where
  id : Text
  statement : Text
  content : Text
  ring : Int
  confidence : Rat
  nodeType : Option Text
  originRefs : Option (List BeliefOrigin)

def BeliefUpsertPayload.fields : FieldList BeliefUpsertPayload :=
  [("id", field storeString (·.id) fun p v => { p with id := v }),
    ("statement", field storeString (·.statement) fun p v => { p with statement := v }),
    ("content", field storeString (·.content) fun p v => { p with content := v }),
    ("ring", field storeInt64 (·.ring) fun p v => { p with ring := v }),
    ("confidence", field (storeFloat float64) (·.confidence) fun p v => { p with confidence := v }),
    ("node_type", field (storePointer [] storeString) (·.nodeType) fun p v => { p with nodeType := v }),
    ("origin_refs", field (storePointer [] storeOrigins) (·.originRefs) fun p v =>
      { p with originRefs := v })]

def readBeliefUpsert : Bytes → Option BeliefUpsertPayload :=
  unmarshal (structType false (BeliefUpsertPayload.fields float64)) ⟨[], [], [], 0, 0, none, none⟩

structure WorkingStylePayload where
  id : Text
  content : Text
  confidence : Rat
  originRefs : Option (List BeliefOrigin)

def WorkingStylePayload.fields : FieldList WorkingStylePayload :=
  [("id", field storeString (·.id) fun p v => { p with id := v }),
    ("content", field storeString (·.content) fun p v => { p with content := v }),
    ("confidence", field (storeFloat float64) (·.confidence) fun p v => { p with confidence := v }),
    ("origin_refs", field (storePointer [] storeOrigins) (·.originRefs) fun p v =>
      { p with originRefs := v })]

def readWorkingStyle : Bytes → Option WorkingStylePayload :=
  unmarshal (structType false (WorkingStylePayload.fields float64)) ⟨[], [], 0, none⟩

/-- The payload `edge.create` carries. -/
structure EdgePayload where
  id : Text
  fromId : Text
  toId : Text
  edgeType : Text
  strength : Option Rat
  context : Option Text

def EdgePayload.fields : FieldList EdgePayload :=
  [("id", field storeString (·.id) fun p v => { p with id := v }),
    ("from_id", field storeString (·.fromId) fun p v => { p with fromId := v }),
    ("to_id", field storeString (·.toId) fun p v => { p with toId := v }),
    ("edge_type", field storeString (·.edgeType) fun p v => { p with edgeType := v }),
    ("strength", field (storePointer 0 (storeFloat float64)) (·.strength) fun p v =>
      { p with strength := v }),
    ("context", field (storePointer [] storeString) (·.context) fun p v => { p with context := v })]

def readEdge : Bytes → Option EdgePayload :=
  unmarshal (structType false (EdgePayload.fields float64)) ⟨[], [], [], [], none, none⟩

end

structure AdmissionPayload where
  id : Text
  statement : Text
  content : Text
  originRefs : List BeliefOrigin
  distinctFrom : List Text
  distinction : Text
  duplicateOk : Bool

def AdmissionPayload.fields : FieldList AdmissionPayload :=
  [("id", field storeString (·.id) fun p v => { p with id := v }),
    ("statement", field storeString (·.statement) fun p v => { p with statement := v }),
    ("content", field storeString (·.content) fun p v => { p with content := v }),
    ("origin_refs", field storeOrigins (·.originRefs) fun p v => { p with originRefs := v }),
    ("distinct_from", field (storeSlice [] storeString) (·.distinctFrom) fun p v =>
      { p with distinctFrom := v }),
    ("distinction", field storeString (·.distinction) fun p v => { p with distinction := v }),
    ("duplicate_ok", field storeBool (·.duplicateOk) fun p v => { p with duplicateOk := v })]

def readAdmission : Bytes → Option AdmissionPayload :=
  unmarshal (structType false AdmissionPayload.fields) ⟨[], [], [], [], [], [], false⟩

/-- The id alone: `edge.archive`, `belief.archive`, and the checks that look no further. -/
structure IdPayload where
  id : Text

def IdPayload.fields : FieldList IdPayload :=
  [("id", field storeString (·.id) fun p v => { p with id := v })]

def readId : Bytes → Option IdPayload := unmarshal (structType false IdPayload.fields) ⟨[]⟩

/-- `belief.archive` also reads its reason, which must be a string. -/
structure BeliefArchivePayload where
  id : Text
  reason : Text

def BeliefArchivePayload.fields : FieldList BeliefArchivePayload :=
  [("id", field storeString (·.id) fun p v => { p with id := v }),
    ("reason", field storeString (·.reason) fun p v => { p with reason := v })]

def readBeliefArchive : Bytes → Option BeliefArchivePayload :=
  unmarshal (structType false BeliefArchivePayload.fields) ⟨[], []⟩

structure BeliefTextPayload where
  id : Text
  statement : Text
  content : Text

def BeliefTextPayload.fields : FieldList BeliefTextPayload :=
  [("id", field storeString (·.id) fun p v => { p with id := v }),
    ("statement", field storeString (·.statement) fun p v => { p with statement := v }),
    ("content", field storeString (·.content) fun p v => { p with content := v })]

def readBeliefText : Bytes → Option BeliefTextPayload :=
  unmarshal (structType false BeliefTextPayload.fields) ⟨[], [], []⟩

structure BeliefPromotePayload where
  id : Text
  ring : Int

def BeliefPromotePayload.fields : FieldList BeliefPromotePayload :=
  [("id", field storeString (·.id) fun p v => { p with id := v }),
    ("ring", field storeInt64 (·.ring) fun p v => { p with ring := v })]

def readBeliefPromote : Bytes → Option BeliefPromotePayload :=
  unmarshal (structType false BeliefPromotePayload.fields) ⟨[], 0⟩

structure BeliefSupersedePayload where
  oldId : Text
  newId : Text
  reason : Text

def BeliefSupersedePayload.fields : FieldList BeliefSupersedePayload :=
  [("old_id", field storeString (·.oldId) fun p v => { p with oldId := v }),
    ("new_id", field storeString (·.newId) fun p v => { p with newId := v }),
    ("reason", field storeString (·.reason) fun p v => { p with reason := v })]

def readBeliefSupersede : Bytes → Option BeliefSupersedePayload :=
  unmarshal (structType false BeliefSupersedePayload.fields) ⟨[], [], []⟩

structure SuccessorPayload where
  oldId : Text
  newId : Text

def SuccessorPayload.fields : FieldList SuccessorPayload :=
  [("old_id", field storeString (·.oldId) fun p v => { p with oldId := v }),
    ("new_id", field storeString (·.newId) fun p v => { p with newId := v })]

def readSuccessor : Bytes → Option SuccessorPayload :=
  unmarshal (structType false SuccessorPayload.fields) ⟨[], []⟩

/-! ### Intentions and commitments -/

structure IntentionPayload where
  id : Text
  statement : Text
  why : Text

def IntentionPayload.fields : FieldList IntentionPayload :=
  [("id", field storeString (·.id) fun p v => { p with id := v }),
    ("statement", field storeString (·.statement) fun p v => { p with statement := v }),
    ("why", field storeString (·.why) fun p v => { p with why := v })]

def readIntention : Bytes → Option IntentionPayload :=
  unmarshal (structType false IntentionPayload.fields) ⟨[], [], []⟩

structure IntentionStatePayload where
  id : Text
  state : Text
  outcome : Text

def IntentionStatePayload.fields : FieldList IntentionStatePayload :=
  [("id", field storeString (·.id) fun p v => { p with id := v }),
    ("state", field storeString (·.state) fun p v => { p with state := v }),
    ("outcome", field storeString (·.outcome) fun p v => { p with outcome := v })]

def readIntentionState : Bytes → Option IntentionStatePayload :=
  unmarshal (structType false IntentionStatePayload.fields) ⟨[], [], []⟩

structure CommitmentPayload where
  id : Text
  description : Text
  counterpartId : Text

def CommitmentPayload.fields : FieldList CommitmentPayload :=
  [("id", field storeString (·.id) fun p v => { p with id := v }),
    ("description", field storeString (·.description) fun p v => { p with description := v }),
    ("counterpart_id", field storeString (·.counterpartId) fun p v => { p with counterpartId := v })]

def readCommitment : Bytes → Option CommitmentPayload :=
  unmarshal (structType false CommitmentPayload.fields) ⟨[], [], []⟩

structure CommitmentStatePayload where
  id : Text
  state : Text
  result : Text
  repairState : Text
  note : Text

def CommitmentStatePayload.fields : FieldList CommitmentStatePayload :=
  [("id", field storeString (·.id) fun p v => { p with id := v }),
    ("state", field storeString (·.state) fun p v => { p with state := v }),
    ("result", field storeString (·.result) fun p v => { p with result := v }),
    ("repair_state", field storeString (·.repairState) fun p v => { p with repairState := v }),
    ("note", field storeString (·.note) fun p v => { p with note := v })]

def readCommitmentState : Bytes → Option CommitmentStatePayload :=
  unmarshal (structType false CommitmentStatePayload.fields) ⟨[], [], [], [], []⟩

/-! ### Experiences and runs -/

structure ExperiencePayload where
  id : Text
  content : Text
  category : Text
  unmetabolized : Bool
  earlierPrivate : Bool
  provenance : Text
  sourceTurn : Nat
  sourceUrl : Text
  raw : Option Bool

def ExperiencePayload.fields : FieldList ExperiencePayload :=
  [("id", field storeString (·.id) fun p v => { p with id := v }),
    ("content", field storeString (·.content) fun p v => { p with content := v }),
    ("category", field storeString (·.category) fun p v => { p with category := v }),
    ("unmetabolized", field storeBool (·.unmetabolized) fun p v => { p with unmetabolized := v }),
    ("private", field storeBool (·.earlierPrivate) fun p v => { p with earlierPrivate := v }),
    ("provenance", field storeString (·.provenance) fun p v => { p with provenance := v }),
    ("source_turn", field storeUint64 (·.sourceTurn) fun p v => { p with sourceTurn := v }),
    ("source_url", field storeString (·.sourceUrl) fun p v => { p with sourceUrl := v }),
    ("raw", field (storePointer false storeBool) (·.raw) fun p v => { p with raw := v })]

def readExperience : Bytes → Option ExperiencePayload :=
  unmarshal (structType false ExperiencePayload.fields) ⟨[], [], [], false, false, [], 0, [], none⟩

structure ConfirmedCrossing where
  id : Text
  ticks : Int

def confirmedCrossing : StructType ConfirmedCrossing := structType false
    [("id", field storeString (·.id) fun p v => { p with id := v }),
      ("ticks", field storeInt64 (·.ticks) fun p v => { p with ticks := v })]

structure FacilityRunPayload where
  inputs : List Text
  outputs : List Nat
  confirmed : List ConfirmedCrossing

def FacilityRunPayload.fields : FieldList FacilityRunPayload :=
  [("inputs", field (storeSlice [] storeString) (·.inputs) fun p v => { p with inputs := v }),
    ("outputs", field (storeSlice 0 storeUint64) (·.outputs) fun p v => { p with outputs := v }),
    ("confirmed", field (storeSlice ⟨[], 0⟩ confirmedCrossing.value) (·.confirmed) fun p v =>
      { p with confirmed := v })]

def readFacilityRun : Bytes → Option FacilityRunPayload :=
  unmarshal (structType false FacilityRunPayload.fields) ⟨[], [], []⟩

/-! ### Relationships -/

structure RelationshipPayload where
  id : Text
  counterpartName : Text
  counterpartRole : Text
  trustLevel : Text
  autonomyLevel : Text
  relationshipType : Text
  supersedes : Text
  charterText : Text
  operatorApproval : Text
  approvalTurn : Nat
  approvalBasis : Text

def RelationshipPayload.fields : FieldList RelationshipPayload :=
  [("id", field storeString (·.id) fun p v => { p with id := v }),
    ("counterpart_name", field storeString (·.counterpartName) fun p v =>
      { p with counterpartName := v }),
    ("counterpart_role", field storeString (·.counterpartRole) fun p v =>
      { p with counterpartRole := v }),
    ("trust_level", field storeString (·.trustLevel) fun p v => { p with trustLevel := v }),
    ("autonomy_level", field storeString (·.autonomyLevel) fun p v => { p with autonomyLevel := v }),
    ("relationship_type", field storeString (·.relationshipType) fun p v =>
      { p with relationshipType := v }),
    ("supersedes", field storeString (·.supersedes) fun p v => { p with supersedes := v }),
    ("charter_text", field storeString (·.charterText) fun p v => { p with charterText := v }),
    ("operator_approval_excerpt", field storeString (·.operatorApproval) fun p v =>
      { p with operatorApproval := v }),
    ("operator_approval_turn", field storeUint64 (·.approvalTurn) fun p v =>
      { p with approvalTurn := v }),
    ("approval_basis", field storeString (·.approvalBasis) fun p v => { p with approvalBasis := v })]

def orDefault (t : Text) (default : String) : Text := if t = [] then default.toList else t

def readRelationshipPayload (raw : Bytes) : Option RelationshipPayload :=
  (unmarshal (structType false RelationshipPayload.fields)
    ⟨[], [], [], [], [], [], [], [], [], 0, []⟩ raw).map fun p =>
    { p with
      counterpartRole := orDefault p.counterpartRole "operator"
      trustLevel := orDefault p.trustLevel "building"
      autonomyLevel := orDefault p.autonomyLevel "supervised"
      relationshipType := orDefault p.relationshipType "founding_operator" }

/-! ### Witness receipts, trust epochs and the public name -/

def witnessReceiptPayload : StructType WitnessReceiptPayload := structType false
    [("identity_id", field storeString (·.identityId) fun p v => { p with identityId := v }),
      ("previous_witnessed_ledger_ordinal", field storeInt64 (·.previousWitnessedLedgerOrdinal)
        fun p v => { p with previousWitnessedLedgerOrdinal := v }),
      ("previous_witnessed_ledger_hash", field storeString (·.previousWitnessedLedgerHash)
        fun p v => { p with previousWitnessedLedgerHash := v }),
      ("ledger_ordinal", field storeInt64 (·.ledgerOrdinal) fun p v => { p with ledgerOrdinal := v }),
      ("ledger_hash", field storeString (·.ledgerHash) fun p v => { p with ledgerHash := v }),
      ("witnessed_at", field storeString (·.witnessedAt) fun p v => { p with witnessedAt := v }),
      ("witness_key_id", field storeString (·.witnessKeyId) fun p v => { p with witnessKeyId := v }),
      ("witness_sig_b64", field storeString (·.witnessSigB64) fun p v =>
        { p with witnessSigB64 := v })]

/-- `beforeRewrap`: the member is there, whatever its value. -/
structure SystemWitnessedPayload where
  receipt : Option WitnessReceiptPayload
  beforeRewrap : Bool

def readSystemWitnessed : Bytes → Option SystemWitnessedPayload := unmarshal (structType false
    [("receipt", field (storePointer ⟨[], 0, [], 0, [], [], [], []⟩ witnessReceiptPayload.value)
        (·.receipt) fun p v => { p with receipt := v }),
      ("receipt_before_rewrap", fun p _ => some { p with beforeRewrap := true })]) ⟨none, false⟩

structure TrustEpochPayload where
  root : Text
  trustEpoch : Int
  payloadSha256 : Text

def readTrustEpoch : Bytes → Option TrustEpochPayload := unmarshal (structType false
    [("root", field storeString (·.root) fun p v => { p with root := v }),
      ("trust_epoch", field storeInt64 (·.trustEpoch) fun p v => { p with trustEpoch := v }),
      ("payload_sha256", field storeString (·.payloadSha256) fun p v =>
        { p with payloadSha256 := v })]) ⟨[], 0, []⟩

structure PublicNamePayload where
  nameId : Text
  name : Text
  zone : Text

def readPublicName : Bytes → Option PublicNamePayload := unmarshal (structType false
    [("name_id", field storeString (·.nameId) fun p v => { p with nameId := v }),
      ("name", field storeString (·.name) fun p v => { p with name := v }),
      ("zone", field storeString (·.zone) fun p v => { p with zone := v })]) ⟨[], [], []⟩

/-! ### The self model -/

structure SelfModelSynthesisPayload where
  id : Text
  synthesisText : Text
  continuityThread : Text
  sourceEntityRefs : List SourceRef
  changesSinceLast : Text
  previousSynthesisId : Text
  modelId : Text

/-- Unknown members are refused in the references too. -/
def sourceRef : StructType SourceRef := structType true
    [("class", field storeString (·.sourceClass) fun p v => { p with sourceClass := v }),
      ("id", field storeString (·.id) fun p v => { p with id := v })]

def decodeSelfModelSynthesisPayload : Bytes → Option SelfModelSynthesisPayload :=
  unmarshal (structType true [("id", field storeString (·.id) fun p v => { p with id := v }),
      ("synthesis_text", field storeString (·.synthesisText) fun p v =>
        { p with synthesisText := v }),
      ("continuity_thread", field storeString (·.continuityThread) fun p v =>
        { p with continuityThread := v }),
      ("source_entity_refs", field (storeSlice ⟨[], []⟩ sourceRef.value) (·.sourceEntityRefs)
        fun p v => { p with sourceEntityRefs := v }),
      ("changes_since_last", field storeString (·.changesSinceLast) fun p v =>
        { p with changesSinceLast := v }),
      ("previous_synthesis_id", field storeString (·.previousSynthesisId) fun p v =>
        { p with previousSynthesisId := v }),
      ("model_id", field storeString (·.modelId) fun p v => { p with modelId := v })])
    ⟨[], [], [], [], [], [], []⟩

structure HistoricalSelfModel where
  id : Text
  content : Text
  continuity : Text
  changes : Text
  refs : List Text
  sourceSeqs : List Nat

def readHistoricalSelfModel : Bytes → Option HistoricalSelfModel := unmarshal (structType false
    [("id", field storeString (·.id) fun p v => { p with id := v }),
      ("content", field storeString (·.content) fun p v => { p with content := v }),
      ("continuity_thread", field storeString (·.continuity) fun p v => { p with continuity := v }),
      ("changes_since_last", field storeString (·.changes) fun p v => { p with changes := v }),
      ("source_entity_refs", field (storeSlice [] storeString) (·.refs) fun p v =>
        { p with refs := v }),
      ("source_seqs", field (storeSlice 0 storeUint64) (·.sourceSeqs) fun p v =>
        { p with sourceSeqs := v })]) ⟨[], [], [], [], [], []⟩

/-- The payload and whether it has the historical form. A map takes its keys as they are. -/
def decodeRecordedSelfModelSynthesis (raw : Bytes) : Option (SelfModelSynthesisPayload × Bool) := do
  let fields ← (Utf8.decode? raw).bind membersOf
  if "content".toList ∉ fields.map Member.key then
    return (← decodeSelfModelSynthesisPayload raw, false)
  else if "synthesis_text".toList ∈ fields.map Member.key then none
  else
    let old ← readHistoricalSelfModel raw
    return (⟨old.id, old.content, old.continuity, old.refs.map fun id => ⟨[], id⟩, old.changes,
      [], []⟩, true)

/-! ### Citations and dream claims -/

/-- The value of one member, kept as it is; `null` counts as absent. -/
def storeRaw (_ : Option Value) : Value → Option (Option Value)
  | .null => some none
  | v => some (some v)

def readMember (name : String) (payload : Bytes) : Option (Option Value) :=
  unmarshal (structType false [(name, field storeRaw id fun _ v => v)]) none payload

structure Citation where
  identity : Text
  seq : Nat
  entryHash : Text
  deriving DecidableEq, Repr

def citation : StructType Citation := structType true
    [("identity", field storeString (·.identity) fun p v => { p with identity := v }),
      ("seq", field storeUint64 (·.seq) fun p v => { p with seq := v }),
      ("entry_hash", field storeString (·.entryHash) fun p v => { p with entryHash := v })]

structure DreamedThrough where
  turn : Text
  position : Nat

structure DreamClaim where
  turn : Option Text
  position : Option Nat

def dreamClaim : StructType DreamClaim := structType true
    [("turn", field (storePointer [] storeString) (·.turn) fun p v => { p with turn := v }),
      ("position", field (storePointer 0 storeUint64) (·.position) fun p v =>
        { p with position := v })]

def readString (name : String) (payload : Bytes) : Option Text :=
  unmarshal (structType false [(name, field storeString id fun _ v => v)]) [] payload

structure SpeakerObservation where
  decision : Text
  speakerId : Text
  speakerUuid : Text
  continuity : Text

def readSpeaker (payload : Text) : Option SpeakerObservation := (structType false
    [("decision", field storeString (·.decision) fun p v => { p with decision := v }),
      ("speaker_id", field storeString (·.speakerId) fun p v => { p with speakerId := v }),
      ("speaker_uuid", field storeString (·.speakerUuid) fun p v => { p with speakerUuid := v }),
      ("continuity", field storeString (·.continuity) fun p v =>
        { p with continuity := v })]).unmarshal ⟨[], [], [], []⟩ payload

end AiiOs.Store
