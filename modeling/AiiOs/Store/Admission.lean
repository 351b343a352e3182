import AiiOs.Store.Materialize

/-! internal/store: `ValidateEvent`, the preflight an event passes before it is appended.
It runs the event's handler on the projection as it stands and rolls back. -/

namespace AiiOs.Store
open Lib Lib.Json AiiOs.Ledger

def canonicalRings : EventType → List Int
  | .ring0Genesis => [0]
  | .relationshipUpsert => [1]
  | .beliefPromote => [2]
  | .systemWitnessed | .trustEpochAccepted | .networkNameClaimed => [0]
  | _ => [3]

inductive CitationError
  | payload
  | notArray
  | tooMany (n : Nat)
  | decode (i : Nat)
  | identity (i : Nat)
  | entryHash (i : Nat)
  | seqZero (i : Nat)
  | seqRange (i : Nat)
  | repeated (i : Nat)
  | notCarried
  | genesis
  | missing (i seq : Nat)
  | hash (i seq : Nat)
  deriving DecidableEq, Repr

inductive DreamError
  | payload
  | decode
  | incomplete
  | turnId
  | notCarried
  | noTurn (turn : Text)
  | pastEnd (position length : Nat)
  deriving DecidableEq, Repr

inductive TurnError
  | noTurn (turn : Nat)
  | role (turn : Nat)
  | notTheirs (turn : Nat)
  | noVoices (turn : Nat)
  | unobserved (turn : Nat)
  | unreadable (turn : Nat)
  | unidentified (turn : Nat)
  | someoneElse (turn : Nat)
  | notEnrolled (turn : Nat)
  deriving DecidableEq, Repr

inductive AdmissionError
  | ring (ring : Int) (type : Bytes)
  | citation (e : CitationError)
  | dreamedThrough (e : DreamError)
  | ring2Text (id : Text)
  | beliefPayload
  | duplicateOk
  | textRequired (type : EventType)
  | sourceRequired (type : EventType)
  | distinctFrom
  | statementChange (id : Text)
  | duplicate (id : Text)
  | similar (id : Text)
  | distinctInactive (id : Text)
  | retired (id : Text)
  | ownSuccessor (id : Text)
  | noSuccessor (id : Text)
  | retiredSuccessor (id : Text)
  | selfModelPayload
  | turn (e : TurnError)
  | operatorUnapproved (id : Text) (e : Refusal)
  | notRaw (type : EventType) (id : Text)
  | crossingAhead (type : EventType) (id : Text) (ticks lived : Int)
  | sourceIdHeld (type : EventType) (id : Text)
  | refused (e : Refusal)
  | ungrounded (target : Text)
  deriving DecidableEq, Repr

def allow (c : Prop) [Decidable c] (e : AdmissionError) : Except AdmissionError Unit :=
  if c then .ok () else .error e

def orDeny {α : Type} (o : Option α) (e : AdmissionError) : Except AdmissionError α :=
  match o with
  | some a => .ok a
  | none => .error e

def passed {α : Type} (x : Except Refusal α) : Except AdmissionError α := x.mapError .refused

/-! ### Citations -/

def maxCitations : Nat := 16

/-- `^[0-9a-f]{64}$`. -/
def isHex64 (t : Text) : Bool :=
  t.length == 64 && t.all fun c => c.isDigit || ('a'.toNat ≤ c.toNat && c.toNat ≤ 'f'.toNat)

def citesAllowed (type : EventType) : Bool :=
  type = .experienceCreate || type = .beliefUpsert || type = .edgeCreate

def parseEach : Nat → List Citation → List Value → Except CitationError (List Citation)
  | _, _, [] => .ok []
  | i, seen, v :: vs =>
    match citation.value ⟨[], 0, []⟩ v with
    | none => .error (.decode i)
    | some c =>
      if !isHex64 c.identity then .error (.identity i)
      else if !isHex64 c.entryHash then .error (.entryHash i)
      else if c.seq = 0 then .error (.seqZero i)
      else if 2 ^ 63 ≤ c.seq then .error (.seqRange i)
      else if c ∈ seen then .error (.repeated i)
      else (parseEach (i + 1) (c :: seen) vs).map (c :: ·)

def parseCitations (payload : Bytes) : Except CitationError (List Citation) :=
  match readMember "cites" payload with
  | none => .error .payload
  | some none => .ok []
  | some (some (.arr vs)) =>
    if maxCitations < vs.length then .error (.tooMany vs.length) else parseEach 0 [] vs
  | some (some _) => .error .notArray

def ownFingerprintLocked (p : Projection) : Option Text :=
  match (p.ledger.rows.filter fun r => r.type = bytesOf "ring0.genesis").mergeSort
      (fun a b => a.seq ≤ b.seq) with
  | [] => some []
  | r :: _ => readString "fingerprint" r.payload

def mirroredEvent (r : LedgerRow) : Event :=
  ⟨r.seq, r.prev, r.ts, r.type, r.ring, r.content, [], [], false, false, .none⟩

def checkOwnCitation (h : Host) (p : Projection) (i : Nat) (c : Citation) : Except CitationError Unit :=
  match p.ledger.find? c.seq with
  | none => .error (.missing i c.seq)
  | some r =>
    if entryHash h.sha256 (mirroredEvent r) = Utf8.encode c.entryHash then .ok ()
    else .error (.hash i c.seq)

def checkCitations (h : Host) (p : Projection) (self : Text) :
    Nat → List Citation → Except CitationError Unit
  | _, [] => .ok ()
  | i, c :: cs => do
    if self ≠ [] ∧ c.identity = self then checkOwnCitation h p i c
    checkCitations h p self (i + 1) cs

def validateCitationsLocked (h : Host) (p : Projection) (type : EventType) (payload : Bytes) :
    Except CitationError Unit := do
  let cites ← parseCitations payload
  if cites ≠ [] then
    if !citesAllowed type then throw .notCarried
    match ownFingerprintLocked p with
    | none => throw .genesis
    | some self => checkCitations h p self 0 cites

/-! ### What a dream read -/

def isTurnId (t : Text) : Bool :=
  1 ≤ t.length && t.length ≤ 64 &&
    t.all fun c => c.isAlphanum || c = '_' || c = '-'

def parseDreamedThrough (payload : Bytes) : Except DreamError (Option DreamedThrough) :=
  match readMember "dreamed_through" payload with
  | none => .error .payload
  | some none => .ok none
  | some (some v) =>
    match dreamClaim.value ⟨none, none⟩ v with
    | none => .error .decode
    | some ⟨some turn, some position⟩ =>
      if isTurnId turn then .ok (some ⟨turn, position⟩) else .error .turnId
    | some _ => .error .incomplete

def validateDreamedThroughLocked (p : Projection) (type : EventType) (payload : Bytes) :
    Except DreamError Unit := do
  match ← parseDreamedThrough payload with
  | none => pure ()
  | some claim =>
    match readString "provenance" payload with
    | none => throw .payload
    | some provenance =>
      if type ≠ .experienceCreate ∨ provenance ≠ "dream".toList then throw .notCarried
      match p.live.conversations.find? fun t => t.id = claim.turn with
      | none => throw (.noTurn claim.turn)
      | some t => if t.content.length < claim.position then throw (.pastEnd claim.position t.content.length)

/-! ### Beliefs -/

def Belief.active (b : Belief) : Bool := !b.archived && b.supersededBy = none

def isBeliefText (type : EventType) : Bool := type = .beliefUpsert || type = .workingStyleUpsert

def beliefText (type : EventType) (statement content : Text) : Text :=
  if type = .workingStyleUpsert ∨ statement = [] then content else statement

def validateRing2TextLocked (p : Projection) (type : EventType) (payload : Bytes) :
    Except AdmissionError Unit :=
  if !isBeliefText type then .ok ()
  else
    match readBeliefText payload with
    | none => .ok ()
    | some q =>
      if q.id = [] then .ok ()
      else
        match p.beliefs.find? q.id with
        | none => .ok ()
        | some b =>
          let text := beliefText type q.statement q.content
          allow (¬ (b.ring = 2 ∧ text ≠ [] ∧ text ≠ b.statement)) (.ring2Text q.id)

/-- `strings.Fields`. -/
def textFields : Text → List Text
  | [] => []
  | c :: t =>
    if c ∈ spaceRunes then textFields t
    else
      match t, textFields t with
      | d :: _, w :: ws => if d ∈ spaceRunes then [c] :: w :: ws else (c :: w) :: ws
      | _, ws => [c] :: ws

def normalizedBeliefStatement (h : Host) (s : Text) : Text :=
  h.toLower (" ".toList.intercalate (textFields s))

section
variable (h : Host)

def trigramWords : Text → List Text
  | [] => []
  | c :: t =>
    if !h.isWord c then trigramWords t
    else
      match t, trigramWords t with
      | d :: _, w :: ws => if h.isWord d then (h.lowerRune c :: w) :: ws else [h.lowerRune c] :: w :: ws
      | _, ws => [h.lowerRune c] :: ws

def windows : Text → List Text
  | a :: b :: c :: t => [a, b, c] :: windows (b :: c :: t)
  | _ => []

def trigramSet (s : Text) : List Text :=
  ((trigramWords h s).flatMap fun w => windows ("  ".toList ++ w ++ " ".toList)).dedup

/-- `like(current) >= 0.75`: three quarters of the trigrams of either are shared. -/
def similar (a b : Text) : Bool :=
  let sa := trigramSet h a
  let sb := trigramSet h b
  let shared := (sb.filter (· ∈ sa)).length
  sa ≠ [] && sb ≠ [] && 3 * (sa.length + sb.length - shared) ≤ 4 * shared

def checkDistinct (id : Text) : List Text → List Text → Except AdmissionError Unit
  | _, [] => .ok ()
  | seen, d :: ds => do
    allow (d ≠ [] ∧ d ≠ id ∧ d ∉ seen) .distinctFrom
    checkDistinct id (d :: seen) ds

def checkCandidate (q : AdmissionPayload) (statement : Text) (b : Belief) : Except AdmissionError Unit :=
  let norm := normalizedBeliefStatement h statement
  if b.id = q.id then
    allow (normalizedBeliefStatement h b.statement = norm) (.statementChange b.id)
  else do
    allow (normalizedBeliefStatement h b.statement ≠ norm) (.duplicate b.id)
    allow (similar h statement b.statement → b.id ∈ q.distinctFrom ∧ trimText q.distinction ≠ [])
      (.similar b.id)

def validateBeliefAdmissionLocked (p : Projection) (type : EventType) (payload : Bytes) :
    Except AdmissionError Unit :=
  if !isBeliefText type then .ok ()
  else do
    let q ← orDeny (readAdmission payload) .beliefPayload
    allow (q.duplicateOk = false) .duplicateOk
    let statement := beliefText type q.statement q.content
    allow (normalizedBeliefStatement h statement ≠ []) (.textRequired type)
    allow (type = .workingStyleUpsert → trimText q.content ≠ []) (.textRequired type)
    allow (q.originRefs ≠ []) (.sourceRequired type)
    let active := p.beliefs.rows.filter Belief.active
    checkDistinct q.id [] q.distinctFrom
    active.forM (checkCandidate h q statement)
    q.distinctFrom.forM fun d => allow (d ∈ active.map Belief.id) (.distinctInactive d)

end

section
variable (p : Projection) (type : EventType)

def validateRetiredBeliefLocked (payload : Bytes) :
    Except AdmissionError Unit :=
  if !(isBeliefText type || type = .beliefPromote) then .ok ()
  else
    match readId payload with
    | none => .ok ()
    | some q =>
      if q.id = [] then .ok ()
      else
        match p.beliefs.find? q.id with
        | none => .ok ()
        | some b => allow (b.active) (.retired q.id)

def validateSupersedeSuccessorLocked (payload : Bytes) :
    Except AdmissionError Unit :=
  if type ≠ .beliefSupersede then .ok ()
  else
    match readSuccessor payload with
    | none => .ok ()
    | some q => do
      allow (q.newId ≠ q.oldId) (.ownSuccessor q.newId)
      let b ← orDeny ((p.beliefs.find? q.newId).filter fun b => !b.archived) (.noSuccessor q.newId)
      allow (b.supersededBy = none) (.retiredSuccessor q.newId)

def heldElsewhere (type : EventType) (p : Projection) (id : Text) : Prop :=
  match type with
  | .beliefUpsert | .workingStyleUpsert => p.experiences.Holds id ∧ ¬ p.beliefs.Holds id
  | .experienceCreate => p.beliefs.Holds id ∧ ¬ p.experiences.Holds id
  | _ => False

instance (type : EventType) (p : Projection) (id : Text) : Decidable (heldElsewhere type p id) := by
  unfold heldElsewhere
  split <;> infer_instance

/-- An id names one evidence source; the empty id is not looked at. -/
def validateSourceIDLocked (payload : Bytes) :
    Except AdmissionError Unit :=
  match readId payload with
  | none => .ok ()
  | some q => if q.id = [] then .ok () else allow (¬ heldElsewhere type p q.id) (.sourceIdHeld type q.id)

def Edge.grounds (p : Projection) (e : Edge) (id : Text) : Bool :=
  e.evidenceFor id && e.fromId ≠ id &&
    (p.experiences.Holds e.fromId && !(p.beliefs.Holds e.fromId) ||
      p.beliefs.Holds e.fromId && !(p.experiences.Holds e.fromId))

/-- Run on the projection the event leaves. -/
def validateActiveBeliefGroundingLocked (p : Projection) (payload : Bytes) : Except AdmissionError Unit := do
  let q ← orDeny (readId payload) (.refused (.parse .edgeArchive))
  let edge ← orDeny (p.edges.find? q.id) (.refused (.missingTarget .edgeArchive .edge q.id))
  if edge.edgeType.evidence ∧ ∃ b ∈ p.beliefs.rows, b.id = edge.toId ∧ b.active then
    allow (p.edges.rows.any fun e => e.grounds p edge.toId) (.ungrounded edge.toId)

/-! ### The self model -/

/-- `tokenestimate.Estimate`. -/
def estimateTokens (t : Text) : Nat := ((Utf8.encode t).length + 2) / 3

section
variable (h : Host)

def admitSelfModelBudget (q : SelfModelSynthesisPayload) : Except Refusal Unit :=
  let tokens := estimateTokens (normalizeSelfModelText q.synthesisText)
  require (tokens ≤ h.selfModelBudget) (.selfModel (.tooLong tokens h.selfModelBudget))

def selfModelRefExistsLocked (p : Projection) (sourceClass id : Text) : Bool :=
  let belief (c : Belief → Bool) := (p.beliefs.find? id).any fun b => b.active && c b
  if sourceClass = "beliefs".toList then
    belief fun b => b.nodeType = none || (b.nodeType = some .value && b.ring = 3)
  else if sourceClass = "values".toList then belief fun b => b.nodeType = some .value && b.ring ≤ 2
  else if sourceClass = "intentions".toList then (p.intentions.find? id).any fun i => !i.archived
  else if sourceClass = "reflections".toList then p.selfModels.Holds id
  else if sourceClass = "relationships".toList then
    (p.relationships.find? id).any fun r => r.supersededBy = none
  else if sourceClass = "notes".toList then
    (p.experiences.find? id).any fun x => x.category = some .reflection
  else if sourceClass = "experiences".toList then
    (p.experiences.find? id).any fun x => x.category ≠ some .reflection
  else if sourceClass = "working_style".toList then belief fun b => b.nodeType = some .workingStyle
  else false

def selfModelMinSourceClasses : Nat := 4

def admitSelfModelSourcesLocked (p : Projection) (q : SelfModelSynthesisPayload) :
    Except Refusal Unit := do
  let refs ← canonicalSelfModelRefs q.sourceEntityRefs
  refs.forM fun ref =>
    if selfModelRefExistsLocked p ref.sourceClass ref.id then pure ()
    else
      match selfModelClasses.filter fun c => selfModelRefExistsLocked p c ref.id with
      | [] => throw (.selfModel (.unavailable ref))
      | hits => throw (.selfModel (.classElsewhere ref hits))
  let n := (refs.map SourceRef.sourceClass).dedup.length
  require (selfModelMinSourceClasses ≤ n) (.selfModel (.tooFewClasses n))

def validateSelfModelLocked (p : Projection) (type : EventType) (payload : Bytes) :
    Except AdmissionError Unit :=
  if type ≠ .selfModelSynthesize then .ok ()
  else do
    let portrait ← orDeny (decodeSelfModelSynthesisPayload payload) .selfModelPayload
    passed (admitSelfModelBudget h portrait)
    passed (admitSelfModelSourcesLocked p portrait)

/-! ### What only the live store can check -/

/-- `json_extract(details, '$.key')`; `none` is SQL's NULL. -/
def Turn.detail (t : Turn) (key : String) : Option Value :=
  match t.details.find? fun m => m.1 = key.toList with
  | some (_, .null) => none
  | some (_, v) => some v
  | none => none

def isText (v : Option Value) (s : String) : Bool :=
  match v with
  | some (.str t) => t = s.toList
  | _ => false

def Turn.notRoomSpeech (t : Turn) : Bool := !isText (t.detail "reason") "room speech"

def Turn.dialogue (t : Turn) : Bool :=
  h.historicalInteractions ||
    ((t.kind = "message".toList || t.kind = "legacy".toList) && t.sourceId = none)

def Turn.operatorWord (t : Turn) : Bool :=
  t.dialogue h && t.notRoomSpeech && (t.detail "grade").isNone && !isText (t.detail "channel") "plugin"

def annotationOf (live : Live) (turn : Nat) (kind : String) : Option Text :=
  (live.annotations.find? fun a => a.turnSeq = turn && a.kind = kind.toList).map TurnAnnotation.payload

def spokenMarker : Text := "[voice] ".toList

def spokenByTheOperator (live : Live) (t : Turn) : Except TurnError Unit :=
  if (annotationOf live t.turnSeq "voice").isNone && !spokenMarker.isPrefixOf t.content then .ok ()
  else if h.operatorVoices = [] then .error (.noVoices t.turnSeq)
  else
    match annotationOf live t.turnSeq "speaker" with
    | none => .error (.unobserved t.turnSeq)
    | some payload =>
      match readSpeaker payload with
      | none => .error (.unreadable t.turnSeq)
      | some who =>
        if who.speakerUuid = [] ∨ who.continuity ≠ "matched".toList then .error (.unidentified t.turnSeq)
        else if who.speakerUuid ∉ h.operatorVoices then .error (.someoneElse t.turnSeq)
        else if who.decision ≠ "known".toList ∨ who.speakerId = [] then .error (.notEnrolled t.turnSeq)
        else .ok ()

def citedOperatorTurnLocked (live : Live) (turn : Nat) (affirmation : Bool) :
    Except TurnError Unit :=
  match live.conversations.find? fun t => t.turnSeq = turn with
  | none => .error (.noTurn turn)
  | some t =>
    if t.role ≠ "operator".toList then .error (.role turn)
    else if !(if affirmation then t.operatorWord h else t.notRoomSpeech) then .error (.notTheirs turn)
    else if affirmation then spokenByTheOperator h live t
    else .ok ()

def crossingsNotAheadLocked (crossings : List ConfirmedCrossing) :
    Except AdmissionError Unit :=
  match p.live.lifetime with
  | none => .ok ()
  | some clock => crossings.forM fun c =>
    allow (c.id = [] ∨ c.ticks ≤ 0 ∨ c.ticks ≤ clock.lifetimeTicks ∨ ¬ p.beliefs.Holds c.id)
      (.crossingAhead type c.id c.ticks clock.lifetimeTicks)

/-- Each input is raw and named once; the check ends at the first that is missing. -/
def inputsRaw (p : Projection) (type : EventType) : List Text → List Text → Except AdmissionError Bool
  | _, [] => .ok true
  | seen, id :: inputs =>
    match p.experiences.find? id with
    | none => .ok false
    | some x => do
      allow (x.raw ∧ id ∉ seen) (.notRaw type id)
      inputsRaw p type (id :: seen) inputs

def validateExperienceTurn (p : Projection) (payload : Bytes) : Except AdmissionError Unit :=
  match readExperience payload with
  | none => .ok ()
  | some q =>
    if q.content = [] ∨ q.provenance ≠ "operator".toList ∨
        (validateExperienceLocked q.provenance q.sourceTurn q.sourceUrl).isOk = false then .ok ()
    else (citedOperatorTurnLocked h p.live q.sourceTurn false).mapError .turn

/-- A row held as the operator's is approved by the operator whatever role the payload names. -/
def validateRelationshipTurn (p : Projection) (payload : Bytes) :
    Except AdmissionError Unit :=
  match readRelationshipPayload payload with
  | none => .ok ()
  | some q =>
    let cited := (citedOperatorTurnLocked h p.live q.approvalTurn true).mapError .turn
    if q.counterpartRole ≠ "operator".toList then
      match p.relationships.find? q.id with
      | none => .ok ()
      | some r =>
        if r.counterpartRole ≠ .operator then .ok ()
        else
          match { invariantsOf q with counterpartRole := "operator".toList }.approvalShape with
          | .error e => .error (.operatorUnapproved q.id e)
          | .ok () => cited
    else if (invariantsOf q).approvalShape.isOk = false then .ok ()
    else cited

end

def validateRunInputs (seq : Nat) (payload : Bytes) :
    Except AdmissionError Unit :=
  match readFacilityRun payload with
  | none => .ok ()
  | some q =>
    if q.inputs = [] ∨ (runOutputsPrecedeLocked type seq p q.outputs).isOk = false then .ok ()
    else do
      if ← inputsRaw p type [] q.inputs then crossingsNotAheadLocked p type q.confirmed

end

section
variable (h : Host) (p : Projection)

def validateLiveOnlyLocked (type : EventType) (seq : Nat)
    (payload : Bytes) : Except AdmissionError Unit :=
  match type with
  | .experienceCreate => validateExperienceTurn h p payload
  | .relationshipUpsert => validateRelationshipTurn h p payload
  | .consolidationRun | .dreamRun => validateRunInputs p type seq payload
  | _ => .ok ()

/-! ### The preflight -/

def maxSeq (ledger : Table LedgerRow.seq) : Nat := (ledger.rows.map LedgerRow.seq).foldl max 0

def candidate (now : Bytes) (p : Projection) (type : Bytes) (ring : Int) (payload : Bytes) : Event :=
  ⟨maxSeq p.ledger + 1, bytesOf "preflight", now, type, ring, bytesOf "preflight", payload,
    bytesOf "preflight", false, false, .none⟩

def validateBefore (type : EventType) (payload : Bytes) :
    Except AdmissionError Unit := do
  (validateCitationsLocked h p type payload).mapError .citation
  (validateDreamedThroughLocked p type payload).mapError .dreamedThrough
  validateRing2TextLocked p type payload
  validateBeliefAdmissionLocked h p type payload
  validateRetiredBeliefLocked p type payload
  validateSupersedeSuccessorLocked p type payload
  validateSelfModelLocked h p type payload
  validateLiveOnlyLocked h p type (maxSeq p.ledger + 1) payload
  validateSourceIDLocked p type payload

def validateEvent (h : Host) (now : Bytes) (p : Projection) (type : Bytes) (ring : Int)
    (payload : Bytes) : Except AdmissionError Unit :=
  match EventType.ofBytes? type with
  | none => .error (.ring ring type)
  | some t => do
    allow (ring ∈ canonicalRings t) (.ring ring type)
    validateBefore h p t payload
    let q ← passed (materializeLocked h (candidate now p type ring payload) p)
    if t = .edgeArchive then validateActiveBeliefGroundingLocked q payload

def admitAndApply (h : Host) (now : Bytes) (p : Projection) (evt : Event) :
    Except AdmissionError Projection := do
  validateEvent h now p evt.type evt.ring evt.payload
  passed (materializeLocked h evt p)

/-- An event and the moment it comes in: the settings, the live tables, the clock. -/
structure Arrival where
  settings : Settings
  live : Live
  now : Bytes
  event : Event

def accept (a : Arrival) : Except AdmissionError Projection :=
  admitAndApply (h.under a.settings) a.now { p with live := a.live } a.event

end

def accepted (h : Host) (arrivals : List Arrival) : Except AdmissionError Projection :=
  arrivals.foldlM (accept h) .empty

end AiiOs.Store
