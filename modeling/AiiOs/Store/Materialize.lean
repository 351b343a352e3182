import AiiOs.Store.Payload
import AiiOs.Lib.Scan

/-! internal/store: `materializeLocked` and its handlers. A handler takes the event and
the projection inside the transaction; a refusal rolls the transaction back. The
references to `ledger(seq)` hold throughout: the event's own record is inserted first. -/

namespace AiiOs.Store
open Lib Lib.Json AiiOs.Ledger

/-! ### Event types -/

inductive EventType
  | ring0Genesis
  | relationshipUpsert
  | beliefPromote
  | experienceCreate
  | beliefUpsert
  | edgeCreate
  | selfModelSynthesize
  | intentionCreate
  | intentionStateChange
  | commitmentPromised
  | commitmentStateChange
  | beliefArchive
  | beliefSupersede
  | edgeArchive
  | workingStyleUpsert
  | consolidationRun
  | dreamRun
  | systemWitnessed
  | trustEpochAccepted
  | networkNameClaimed
  deriving DecidableEq, Repr

def EventType.names : List (String × EventType) :=
  [("ring0.genesis", .ring0Genesis), ("relationship.upsert", .relationshipUpsert),
    ("belief.promote", .beliefPromote), ("experience.create", .experienceCreate),
    ("belief.upsert", .beliefUpsert), ("edge.create", .edgeCreate),
    ("self_model.synthesize", .selfModelSynthesize), ("intention.create", .intentionCreate),
    ("intention.state_change", .intentionStateChange), ("commitment.promised", .commitmentPromised),
    ("commitment.state_change", .commitmentStateChange), ("belief.archive", .beliefArchive),
    ("belief.supersede", .beliefSupersede), ("edge.archive", .edgeArchive),
    ("working_style.upsert", .workingStyleUpsert), ("consolidation.run", .consolidationRun),
    ("dream.run", .dreamRun), ("system.witnessed", .systemWitnessed),
    ("trust.epoch_accepted", .trustEpochAccepted), ("network.name_claimed", .networkNameClaimed)]

def EventType.ofBytes? (t : Bytes) : Option EventType :=
  (EventType.names.find? fun p => bytesOf p.1 = t).map Prod.snd

/-! ### Refusals -/

inductive TargetKind
  | belief
  | edge
  | intention
  | commitment
  | experience
  deriving DecidableEq, Repr

inductive SelfModelRefusal
  | idRequired
  | textRequired
  | continuityRequired
  | refIncomplete (i : Nat)
  | refClass (i : Nat) (sourceClass : Text)
  | refDuplicate (ref : SourceRef)
  | refTwoClasses (id : Text)
  | noCurrent (previous : Text)
  | notCurrent (previous current : Text)
  | tooLong (tokens budget : Nat)
  | classElsewhere (ref : SourceRef) (hits : List Text)
  | unavailable (ref : SourceRef)
  | tooFewClasses (have_ : Nat)
  deriving DecidableEq, Repr

inductive Refusal
  | mirror (seq : Nat)
  | unknownEventType (type : Bytes)
  | parse (type : EventType)
  | constraint (type : EventType)
  | foreignKey (type : EventType) (id : Text)
  | missingTarget (type : EventType) (kind : TargetKind) (id : Text)
  | alreadyExists (type : EventType) (id : Text)
  | textRequired (type : EventType)
  | ringRequired
  | originsRequired (target : Text)
  | originSelf (target : Text)
  | originKind (target kind : Text)
  | originRepeated (target id : Text)
  | originMissing (target id : Text)
  | originAmbiguous (target id : Text)
  | originInactive (target id : Text)
  | noActiveEvidence (target : Text)
  | invalidState (type : EventType) (state : Text)
  | counterpartRequired
  | noReceipt
  | receiptFields
  | trustEpochFields
  | publicName
  | nameClaimed (zone : Text)
  | operatorSourceTurn
  | externalSourceUrl
  | unknownProvenance (provenance : Text)
  | noInputs (type : EventType)
  | outputAhead (type : EventType) (seq : Nat)
  | outputMissing (type : EventType) (seq : Nat)
  | crossing (type : EventType) (id : Text) (ticks : Int)
  | approvalExcerpt
  | approvalBasis (basis : Text)
  | approvalTurn
  | mustSupersede (id current : Text)
  | supersedesStale (id supersedes current : Text)
  | supersedesNothing (supersedes : Text)
  | supersedesOperator (id role supersedes : Text)
  | alreadySuperseded (id supersedes : Text)
  | operatorCount (id : Text) (n : Nat)
  | selfModelRows (n : Nat)
  | selfModel (r : SelfModelRefusal)
  | selfModelUnchanged
  | selfModelSupersede (id : Text) (n : Nat)
  deriving DecidableEq, Repr

def require (c : Prop) [Decidable c] (e : Refusal) : Except Refusal Unit :=
  if c then .ok () else .error e

def orRefuse {α : Type} (o : Option α) (e : Refusal) : Except Refusal α := match o with
  | some a => .ok a
  | none => .error e

/-! ### Beliefs -/

/-- `CHECK (confidence >= 0 AND confidence <= 1)`, and the same for `strength`. -/
def inUnit (r : Rat) : Prop := 0 ≤ r ∧ r ≤ 1

instance (r : Rat) : Decidable (inUnit r) := inferInstanceAs (Decidable (_ ∧ _))

inductive OriginKind
  | experience
  | belief
  deriving DecidableEq, Repr

def OriginKind.ofText? : Text → Option OriginKind :=
  oneOf [("experience", .experience), ("belief", .belief)]

def originEdgeId (seq i : Nat) : Text := "edge_origin_".toList ++ decimal seq ++ '_' :: decimal i

/-- The `UNIQUE(from_id, to_id, edge_type)` of the edges. -/
def linked (edges : Table Edge.id) (fromId toId : Text) (t : EdgeType) : Prop :=
  ∃ e ∈ edges.rows, e.fromId = fromId ∧ e.toId = toId ∧ e.edgeType = t

instance (edges : Table Edge.id) (fromId toId : Text) (t : EdgeType) :
    Decidable (linked edges fromId toId t) := inferInstanceAs (Decidable (∃ e ∈ _, _))

def Edge.evidenceFor (e : Edge) (id : Text) : Bool :=
  e.toId = id && !e.archived && e.edgeType.evidence

/-- `SELECT COUNT(*) FROM edges WHERE to_id = ? AND archived = 0 AND edge_type IN (…)`. -/
def evidenceEdges (edges : Table Edge.id) (id : Text) : Nat :=
  edges.rows.countP fun e => e.evidenceFor id

def countEvidence (beliefs : Table Belief.id) (id : Text) (seq : Option Nat) : Table Belief.id :=
  beliefs.update (fun b => b.id = id)
    (fun b => { b with evidenceCount := b.evidenceCount + 1, lastSeq := seq.getD b.lastSeq })
    fun _ => rfl

def held (p : Projection) (kind : OriginKind) (id : Text) : Prop := match kind with
  | .experience => p.experiences.Holds id
  | .belief => p.beliefs.Holds id

instance (p : Projection) (kind : OriginKind) (id : Text) : Decidable (held p kind id) := by
  cases kind <;> exact inferInstanceAs (Decidable (Table.Holds _ _))

def OriginKind.other : OriginKind → OriginKind
  | .experience => .belief
  | .belief => .experience

def insertOrigin (type : EventType) (seq i : Nat) (origin target : Text) (p : Projection) :
    Except Refusal Projection :=
  if linked p.edges origin target .derivedFrom then .ok p
  else do
    let edges ← orRefuse (p.edges.insert? ⟨originEdgeId seq i, origin, target, .derivedFrom, 1,
      none, false, seq⟩) (.constraint type)
    return { p with edges := edges, beliefs := countEvidence p.beliefs target none }

def materializeOrigins (type : EventType) (seq : Nat) (target : Text) :
    Nat → List (OriginKind × Text) → List BeliefOrigin → Projection → Except Refusal Projection
  | _, _, [], p => .ok p
  | i, seen, ref :: refs, p => do
    require (ref.id ≠ [] ∧ ref.id ≠ target) (.originSelf target)
    let kind ← orRefuse (OriginKind.ofText? ref.kind) (.originKind target ref.kind)
    require ((kind, ref.id) ∉ seen) (.originRepeated target ref.id)
    require (held p kind ref.id) (.originMissing target ref.id)
    require (¬ held p kind.other ref.id) (.originAmbiguous target ref.id)
    let p ← insertOrigin type seq i ref.id target p
    require (∃ e ∈ p.edges.rows, e.fromId = ref.id ∧ e.toId = target ∧ e.edgeType = .derivedFrom ∧
      e.archived = false) (.originInactive target ref.id)
    materializeOrigins type seq target (i + 1) ((kind, ref.id) :: seen) refs p

def materializeBeliefOriginsLocked (type : EventType) (seq : Nat) (target : Text) :
    Option (List BeliefOrigin) → Projection → Except Refusal Projection
  | none, p => .ok p
  | some refs, p => do
    require (refs ≠ []) (.originsRequired target)
    let p ← materializeOrigins type seq target 0 [] refs p
    require (evidenceEdges p.edges target ≠ 0) (.noActiveEvidence target)
    return p

/-- The row of a belief, new or under an id that is taken: then only the statement, the
confidence and the last sequence number change. -/
def upsertBelief (beliefs : Table Belief.id) (b : Belief) : Table Belief.id := beliefs.upsert b
    (fun o => { o with statement := b.statement, confidence := b.confidence, lastSeq := b.lastSeq })
    fun _ => rfl

def checkNodeType : Option Text → Except Refusal (Option NodeType)
  | none => .ok none
  | some t => (orRefuse (NodeType.ofText? t) (.constraint .beliefUpsert)).map some

def materializeBeliefUpsert (h : Host) (evt : Event) (p : Projection) : Except Refusal Projection := do
  let q ← orRefuse (readBeliefUpsert h.float64 evt.payload) (.parse .beliefUpsert)
  let statement := if q.statement = [] then q.content else q.statement
  require (statement ≠ []) (.textRequired .beliefUpsert)
  let ring := if q.ring < 1 ∨ 3 < q.ring then 3 else q.ring
  let nodeType ← checkNodeType q.nodeType
  require (inUnit q.confidence) (.constraint .beliefUpsert)
  let beliefs := upsertBelief p.beliefs
    ⟨q.id, statement, ring, nodeType, q.confidence, 0, false, 0, evt.seq, evt.seq, none⟩
  materializeBeliefOriginsLocked .beliefUpsert evt.seq q.id q.originRefs { p with beliefs := beliefs }

def materializeWorkingStyle (h : Host) (evt : Event) (p : Projection) : Except Refusal Projection := do
  let q ← orRefuse (readWorkingStyle h.float64 evt.payload) (.parse .workingStyleUpsert)
  require (q.content ≠ []) (.textRequired .workingStyleUpsert)
  require (inUnit q.confidence) (.constraint .workingStyleUpsert)
  let beliefs := upsertBelief p.beliefs
    ⟨q.id, q.content, 3, some .workingStyle, q.confidence, 0, false, 0, evt.seq, evt.seq, none⟩
  materializeBeliefOriginsLocked .workingStyleUpsert evt.seq q.id q.originRefs
    { p with beliefs := beliefs }

section
variable (evt : Event) (p : Projection)

def materializeBeliefPromote : Except Refusal Projection := do
  let q ← orRefuse (readBeliefPromote evt.payload) (.parse .beliefPromote)
  require (2 ≤ q.ring ∧ q.ring ≤ 3) .ringRequired
  require (p.beliefs.Holds q.id) (.missingTarget .beliefPromote .belief q.id)
  return { p with
    beliefs := p.beliefs.update (fun b => b.id = q.id)
      (fun b => { b with ring := q.ring, lastSeq := evt.seq }) fun _ => rfl }

def materializeBeliefArchive : Except Refusal Projection := do
  let q ← orRefuse (readBeliefArchive evt.payload) (.parse .beliefArchive)
  require (p.beliefs.Holds q.id) (.missingTarget .beliefArchive .belief q.id)
  return { p with
    beliefs := p.beliefs.update (fun b => b.id = q.id)
      (fun b => { b with archived := true, lastSeq := evt.seq }) fun _ => rfl }

/-- `INSERT OR IGNORE INTO edges`: skipped where the id or the link is taken. -/
def insertEdge? (edges : Table Edge.id) (e : Edge) : Option (Table Edge.id) :=
  if linked edges e.fromId e.toId e.edgeType then none else edges.insert? e

def materializeBeliefSupersede : Except Refusal Projection := do
  let q ← orRefuse (readBeliefSupersede evt.payload) (.parse .beliefSupersede)
  require (p.beliefs.Holds q.oldId) (.missingTarget .beliefSupersede .belief q.oldId)
  -- superseded_by REFERENCES beliefs(id)
  require (p.deferred ∨ p.beliefs.Holds q.newId) (.foreignKey .beliefSupersede q.newId)
  let edge : Edge := ⟨"edge_".toList ++ decimal evt.seq, q.newId, q.oldId, .supersedes, 1,
    some q.reason, false, evt.seq⟩
  return { p with
    beliefs := p.beliefs.update (fun b => b.id = q.oldId)
      (fun b => { b with supersededBy := some q.newId, lastSeq := evt.seq }) fun _ => rfl
    edges := (insertEdge? p.edges edge).getD p.edges }

/-! ### Edges -/

def materializeEdgeLocked (h : Host) (evt : Event) (p : Projection) : Except Refusal Projection := do
  let q ← orRefuse (readEdge h.float64 evt.payload) (.parse .edgeCreate)
  -- a row that fails a CHECK is ignored like one that is there already
  let type ← orRefuse (EdgeType.ofText? q.edgeType) (.alreadyExists .edgeCreate q.id)
  require (inUnit (q.strength.getD 1)) (.alreadyExists .edgeCreate q.id)
  let edges ← orRefuse (insertEdge? p.edges
    ⟨q.id, q.fromId, q.toId, type, q.strength.getD 1, q.context, false, evt.seq⟩)
    (.alreadyExists .edgeCreate q.id)
  return { p with
    edges := edges
    beliefs := if type.evidence then countEvidence p.beliefs q.toId (some evt.seq) else p.beliefs }

def archiveEdge (edges : Table Edge.id) (id : Text) : Table Edge.id :=
  edges.update (fun e => e.id = id) (fun e => { e with archived := true }) fun _ => rfl

def materializeEdgeArchive : Except Refusal Projection := do
  let q ← orRefuse (readId evt.payload) (.parse .edgeArchive)
  let edge ← orRefuse (p.edges.find? q.id) (.missingTarget .edgeArchive .edge q.id)
  let edges := archiveEdge p.edges q.id
  return { p with
    edges := edges
    beliefs := if edge.edgeType.evidence then
        p.beliefs.update (fun b => b.id = edge.toId)
          (fun b => { b with evidenceCount := evidenceEdges edges edge.toId }) fun _ => rfl
      else p.beliefs }

/-! ### Intentions and commitments -/

def materializeIntentionCreate : Except Refusal Projection := do
  let q ← orRefuse (readIntention evt.payload) (.parse .intentionCreate)
  require (q.statement ≠ []) (.textRequired .intentionCreate)
  let intentions ← orRefuse (p.intentions.insert?
    ⟨q.id, q.statement, .active, q.why, none, false, evt.seq, evt.seq⟩)
    (.alreadyExists .intentionCreate q.id)
  return { p with intentions := intentions }

def materializeIntentionStateChange : Except Refusal Projection := do
  let q ← orRefuse (readIntentionState evt.payload) (.parse .intentionStateChange)
  let state ← orRefuse (IntentionState.ofText? q.state) (.invalidState .intentionStateChange q.state)
  require (p.intentions.Holds q.id) (.missingTarget .intentionStateChange .intention q.id)
  return { p with
    intentions := p.intentions.update (fun i => i.id = q.id)
      (fun i => { i with state := state, outcome := some q.outcome, updatedSeq := evt.seq })
      fun _ => rfl }

def materializeCommitmentPromised : Except Refusal Projection := do
  let q ← orRefuse (readCommitment evt.payload) (.parse .commitmentPromised)
  require (q.counterpartId ≠ []) .counterpartRequired
  let commitments ← orRefuse (p.commitments.insert?
    ⟨q.id, q.description, q.counterpartId, .promised, none, none, evt.seq, evt.seq⟩)
    (.alreadyExists .commitmentPromised q.id)
  -- counterpart_id REFERENCES relationships(id)
  require (p.deferred ∨ p.relationships.Holds q.counterpartId)
    (.foreignKey .commitmentPromised q.counterpartId)
  return { p with commitments := commitments }

def materializeCommitmentStateChange : Except Refusal Projection := do
  let q ← orRefuse (readCommitmentState evt.payload) (.parse .commitmentStateChange)
  let state ← orRefuse (CommitmentState.ofText? q.state) (.invalidState .commitmentStateChange q.state)
  require (p.commitments.Holds q.id) (.missingTarget .commitmentStateChange .commitment q.id)
  return { p with
    commitments := p.commitments.update (fun c => c.id = q.id)
      (fun c => { c with state := state, result := some q.result, repairState := some q.repairState,
                         updatedSeq := evt.seq }) fun _ => rfl }

/-! ### Receipts, trust epochs and the public name -/

/-- An `AUTOINCREMENT` row takes the next number of its sequence. -/
def materializeSystemWitnessed : Except Refusal Projection := do
  let q ← orRefuse (readSystemWitnessed evt.payload) (.parse .systemWitnessed)
  match q.receipt with
  | none => if q.beforeRewrap then return p else throw .noReceipt
  | some r =>
    require (r.ledgerOrdinal ≠ 0 ∧ r.ledgerHash ≠ []) .receiptFields
    let n := p.sequences.witnessReceipts + 1
    return { p with
      witnessReceipts := p.witnessReceipts ++ [⟨n, r.ledgerOrdinal, r, r.witnessedAt⟩]
      sequences := { p.sequences with witnessReceipts := n } }

def materializeTrustEpochAccepted : Except Refusal Projection := do
  let q ← orRefuse (readTrustEpoch evt.payload) (.parse .trustEpochAccepted)
  require (q.root ≠ [] ∧ 1 ≤ q.trustEpoch ∧ q.payloadSha256 ≠ []) .trustEpochFields
  let n := p.sequences.trustEpochs + 1
  return { p with
    trustEpochs := p.trustEpochs ++ [⟨n, q.root, q.trustEpoch, q.payloadSha256, evt.timestamp⟩]
    sequences := { p.sequences with trustEpochs := n } }

/-- `^[a-z2-7]{26}$`. -/
def isNameId (t : Text) : Bool :=
  t.length == 26 && t.all fun c => c.isLower || ('2'.toNat ≤ c.toNat && c.toNat ≤ '7'.toNat)

def validatePublicNamePayload (q : PublicNamePayload) : Bool :=
  isNameId q.nameId && q.zone ≠ [] && q.zone.head? ≠ some '.' && q.zone.getLast? ≠ some '.' &&
    (q.name = q.nameId ++ '.' :: q.zone || q.name = "ui.".toList ++ q.nameId ++ '.' :: q.zone)

/-- A second claim replaces the first under another zone only. -/
def materializePublicName : Except Refusal Projection := do
  let q ← orRefuse (readPublicName evt.payload) (.parse .networkNameClaimed)
  require (validatePublicNamePayload q) .publicName
  require (∀ n ∈ p.publicName, n.zone ≠ q.zone) (.nameClaimed q.zone)
  return { p with publicName := some ⟨q.nameId, q.name, q.zone, evt.seq, evt.timestamp⟩ }

/-! ### Experiences and runs -/

def validateExperienceLocked (provenance : Text) (sourceTurn : Nat) (sourceUrl : Text) :
    Except Refusal Unit :=
  if provenance = [] then .ok ()
  else
    match Provenance.ofText? provenance with
    | none => .error (.unknownProvenance provenance)
    | some .operator => require (sourceTurn ≠ 0) .operatorSourceTurn
    | some .external => require (sourceUrl ≠ []) .externalSourceUrl
    | some _ => .ok ()

def materializeExperience : Except Refusal Projection := do
  let q ← orRefuse (readExperience evt.payload) (.parse .experienceCreate)
  require (q.content ≠ []) (.textRequired .experienceCreate)
  validateExperienceLocked q.provenance q.sourceTurn q.sourceUrl
  let aside := q.unmetabolized || q.earlierPrivate
  return { p with
    experiences := p.experiences.replace
      ⟨q.id, q.content, Category.ofText? q.category, !aside && q.raw ≠ some false, aside,
        (Provenance.ofText? q.provenance).getD .self, evt.seq, evt.timestamp⟩ }

def runOutputsPrecedeLocked (type : EventType) (seq : Nat) (p : Projection) :
    List Nat → Except Refusal Unit
  | [] => .ok ()
  | n :: outputs => do
    require (n < seq) (.outputAhead type n)
    require (p.ledger.Holds n) (.outputMissing type n)
    runOutputsPrecedeLocked type seq p outputs

def consumeInputs (type : EventType) : List Text → Projection → Except Refusal Projection
  | [], p => .ok p
  | id :: inputs, p => do
    require (p.experiences.Holds id) (.missingTarget type .experience id)
    consumeInputs type inputs { p with
      experiences := p.experiences.update (fun x => x.id = id) (fun x => { x with raw := false })
        fun _ => rfl }

def stampConfirmed (type : EventType) : List ConfirmedCrossing → Projection → Except Refusal Projection
  | [], p => .ok p
  | c :: confirmed, p => do
    require (c.id ≠ [] ∧ 0 < c.ticks) (.crossing type c.id c.ticks)
    require (p.beliefs.Holds c.id) (.missingTarget type .belief c.id)
    stampConfirmed type confirmed { p with
      beliefs := p.beliefs.update (fun b => b.id = c.id && b.confirmedAtTicks = 0)
        (fun b => { b with confirmedAtTicks := c.ticks }) fun _ => rfl }

def materializeFacilityRun (type : EventType) (evt : Event) (p : Projection) :
    Except Refusal Projection := do
  let q ← orRefuse (readFacilityRun evt.payload) (.parse type)
  require (q.inputs ≠ []) (.noInputs type)
  runOutputsPrecedeLocked type evt.seq p q.outputs
  let p ← consumeInputs type q.inputs p
  stampConfirmed type q.confirmed p

/-! ### Relationships -/

structure RelationshipInvariants where
  id : Text
  counterpartRole : Text
  relationshipType : Text
  supersedes : Text
  operatorApproval : Text
  approvalTurn : Nat
  approvalBasis : Text

def invariantsOf (q : RelationshipPayload) : RelationshipInvariants :=
  ⟨q.id, q.counterpartRole, q.relationshipType, q.supersedes, q.operatorApproval, q.approvalTurn,
    q.approvalBasis⟩

def RelationshipInvariants.approvalShape (q : RelationshipInvariants) : Except Refusal Unit :=
  if q.counterpartRole ≠ "operator".toList then .ok ()
  else do
    require (q.operatorApproval ≠ []) .approvalExcerpt
    require (q.approvalBasis = "conversation_turn".toList) (.approvalBasis q.approvalBasis)
    require (0 < q.approvalTurn) .approvalTurn

def Relationship.currentOperator (r : Relationship) : Bool :=
  r.counterpartRole = .operator && r.supersededBy = none

/-- `ORDER BY created_seq DESC LIMIT 1`. -/
def latestCreated : List Relationship → Option Relationship
  | [] => none
  | r :: rs =>
    match latestCreated rs with
    | none => some r
    | some s => if r.createdSeq < s.createdSeq then some s else some r

section
variable (p : Projection) (q : RelationshipInvariants)

def succeedsCurrent : Except Refusal Unit := if q.counterpartRole ≠ "operator".toList then .ok ()
  else
    match latestCreated (p.relationships.rows.filter fun r => r.currentOperator && r.id ≠ q.id) with
    | none => .ok ()
    | some current => do
      require (q.supersedes ≠ []) (.mustSupersede q.id current.id)
      require (q.supersedes = current.id) (.supersedesStale q.id q.supersedes current.id)

def supersedesFound : Except Refusal Unit := if q.supersedes = [] then .ok ()
  else
    match p.relationships.find? q.supersedes with
    | none => .error (.supersedesNothing q.supersedes)
    | some row =>
      require (¬ (row.counterpartRole = .operator ∧ q.counterpartRole ≠ "operator".toList))
        (.supersedesOperator q.id q.counterpartRole q.supersedes)

def validateRelationshipLocked : Except Refusal Unit := do
  q.approvalShape
  succeedsCurrent p q
  supersedesFound p q

end

/-- The row a payload asks for, within the `CHECK`s. -/
def relationshipRow (seq : Nat) (q : RelationshipPayload) : Option Relationship := do
  let role ← CounterpartRole.ofText? q.counterpartRole
  let trust ← TrustLevel.ofText? q.trustLevel
  let autonomy ← AutonomyLevel.ofText? q.autonomyLevel
  let type ← RelationshipType.ofText? q.relationshipType
  return ⟨q.id, q.counterpartName, role, trust, autonomy, type, q.charterText, q.operatorApproval,
    none, seq, none⟩

section
variable (t : Table Relationship.id)

/-- Under an id that is taken the role, the type and the succession stay as they are. -/
def upsertRelationship (r : Relationship) : Table Relationship.id := t.upsert r (fun o =>
      { o with
        counterpartName := r.counterpartName
        trustLevel := r.trustLevel
        autonomyLevel := r.autonomyLevel
        charterText := if r.charterText ≠ [] then r.charterText else o.charterText
        operatorApproval := if r.operatorApproval ≠ [] then r.operatorApproval else o.operatorApproval
        updatedSeq := some r.createdSeq }) fun _ => rfl

def supersedeRelationship (old successor : Text) : Table Relationship.id :=
  t.update (fun r => r.id = old && r.supersededBy = none)
    (fun r => { r with supersededBy := some successor }) fun _ => rfl

def applySuccession (id supersedes : Text) : Except Refusal (Table Relationship.id) :=
  if supersedes = [] then .ok t
  else if ∃ r ∈ t.rows, r.id = supersedes ∧ r.supersededBy = none then
    .ok (supersedeRelationship t supersedes id)
  else .error (.alreadySuperseded id supersedes)

def operatorCount : Nat := t.rows.countP Relationship.currentOperator

end

def materializeRelationshipLocked : Except Refusal Projection := do
  let q ← orRefuse (readRelationshipPayload evt.payload) (.parse .relationshipUpsert)
  validateRelationshipLocked p (invariantsOf q)
  let row ← orRefuse (relationshipRow evt.seq q) (.constraint .relationshipUpsert)
  let t ← applySuccession (upsertRelationship p.relationships row) q.id q.supersedes
  require (q.counterpartRole = "operator".toList → operatorCount t = 1)
    (.operatorCount q.id (operatorCount t))
  return { p with relationships := t }

/-! ### The self model -/

def trimText (t : Text) : Text :=
  ((t.dropWhile (· ∈ spaceRunes)).reverse.dropWhile (· ∈ spaceRunes)).reverse

/-- `"\r\n"` and then `"\r"` become `"\n"`. -/
def newlines : Text → Text
  | [] => []
  | '\r' :: '\n' :: t => '\n' :: newlines t
  | c :: t => (if c = '\r' then '\n' else c) :: newlines t

def normalizeSelfModelText (t : Text) : Text := trimText (newlines t)

def selfModelClasses : List Text :=
  ["beliefs", "values", "intentions", "reflections", "relationships", "notes", "experiences",
    "working_style"].map String.toList

def sourceRefLe (a b : SourceRef) : Bool :=
  if a.sourceClass = b.sourceClass then bytesLe (Utf8.encode a.id) (Utf8.encode b.id)
  else bytesLe (Utf8.encode a.sourceClass) (Utf8.encode b.sourceClass)

def checkRefs : Nat → Option SourceRef → List Text → List SourceRef → Except Refusal Unit
  | _, _, _, [] => .ok ()
  | i, before, seen, ref :: refs => do
    require (ref.sourceClass ≠ [] ∧ ref.id ≠ []) (.selfModel (.refIncomplete i))
    require (ref.sourceClass ∈ selfModelClasses) (.selfModel (.refClass i ref.sourceClass))
    require (before ≠ some ref) (.selfModel (.refDuplicate ref))
    require (ref.id ∉ seen) (.selfModel (.refTwoClasses ref.id))
    checkRefs (i + 1) (some ref) (ref.id :: seen) refs

def canonicalSelfModelRefs (refs : List SourceRef) : Except Refusal (List SourceRef) := do
  let out := (refs.map fun r => (⟨trimText r.sourceClass, trimText r.id⟩ : SourceRef)).mergeSort
    sourceRefLe
  checkRefs 0 none [] out
  return out

def currentSelfModelLocked (p : Projection) : Except Refusal (Option SelfModel) :=
  match p.selfModels.rows.filter fun m => m.supersededBy = none with
  | [] => .ok none
  | [m] => .ok (some m)
  | ms => .error (.selfModelRows ms.length)

def trimSelfModel (q : SelfModelSynthesisPayload) : SelfModelSynthesisPayload := { q with
    id := trimText q.id
    synthesisText := normalizeSelfModelText q.synthesisText
    continuityThread := normalizeSelfModelText q.continuityThread
    changesSinceLast := normalizeSelfModelText q.changesSinceLast
    previousSynthesisId := trimText q.previousSynthesisId }

def validateSelfModelPayloadLocked (p : Projection) (q : SelfModelSynthesisPayload) :
    Except Refusal (SelfModelSynthesisPayload × List SourceRef × Option SelfModel) := do
  let q := trimSelfModel q
  require (q.id ≠ []) (.selfModel .idRequired)
  require (q.synthesisText ≠ []) (.selfModel .textRequired)
  require (q.continuityThread ≠ []) (.selfModel .continuityRequired)
  let refs ← canonicalSelfModelRefs q.sourceEntityRefs
  match ← currentSelfModelLocked p with
  | none =>
    require (q.previousSynthesisId = []) (.selfModel (.noCurrent q.previousSynthesisId))
    return (q, refs, none)
  | some current =>
    require (q.previousSynthesisId = current.id)
      (.selfModel (.notCurrent q.previousSynthesisId current.id))
    require (¬ (q.synthesisText = normalizeSelfModelText current.synthesisText ∧
      q.continuityThread = normalizeSelfModelText current.continuityThread ∧
      refs = current.sourceEntityRefs)) .selfModelUnchanged
    return (q, refs, some current)

def readPortrait :
    Except Refusal (SelfModelSynthesisPayload × List SourceRef × Option SelfModel × Bool) := do
  let (q, historical) ← orRefuse (decodeRecordedSelfModelSynthesis evt.payload)
    (.parse .selfModelSynthesize)
  if historical then
    return (q, q.sourceEntityRefs, ← currentSelfModelLocked p, true)
  else
    let (q, refs, current) ← validateSelfModelPayloadLocked p q
    return (q, refs, current, false)

def insertPortrait (t : Table SelfModel.id) (row : SelfModel) (historical : Bool) :
    Except Refusal (Table SelfModel.id) :=
  if historical then .ok (t.replace row) else orRefuse (t.insert? row) (.constraint .selfModelSynthesize)

def supersedePortrait (t : Table SelfModel.id) (current : Option SelfModel) (id : Text) :
    Except Refusal (Table SelfModel.id) :=
  match current with
  | none => .ok t
  | some c =>
    if c.id = id then .ok t
    else
      let n := t.rows.countP fun m => m.id = c.id && m.supersededBy = none
      if n = 1 then
        .ok (t.update (fun m => m.id = c.id && m.supersededBy = none)
          (fun m => { m with supersededBy := some id }) fun _ => rfl)
      else .error (.selfModelSupersede c.id n)

def materializeSelfModelSynthesis : Except Refusal Projection := do
  let (q, refs, current, historical) ← readPortrait evt p
  let t ← insertPortrait p.selfModels ⟨q.id, q.synthesisText, refs, q.changesSinceLast,
    q.continuityThread, none, evt.seq, evt.timestamp⟩ historical
  let t ← supersedePortrait t current q.id
  return { p with selfModels := t }

/-! ### The dispatch -/

/-- The lived clock starts with the first genesis; a clock that runs is left alone. -/
def materializeBirth : Except Refusal Projection := .ok { p with
    live := { p.live with
      lifetime := p.live.lifetime.or (some ⟨evt.timestamp, 0, evt.timestamp⟩) } }

end

def ledgerRow (evt : Event) : LedgerRow :=
  ⟨evt.seq, evt.prev, evt.timestamp, evt.type, evt.ring, evt.payload, evt.content⟩

/-- The mirror's own row: a free 64-bit number, a ring from 0 to 3 and a JSON payload. -/
def mirrorInsert (h : Host) (evt : Event) (p : Projection) : Except Refusal Projection := do
  require (evt.seq < 2 ^ 63 ∧ 0 ≤ evt.ring ∧ evt.ring ≤ 3 ∧ h.jsonValid evt.payload)
    (.mirror evt.seq)
  let ledger ← orRefuse (p.ledger.insert? (ledgerRow evt)) (.mirror evt.seq)
  return { p with ledger := ledger }

def handle (h : Host) (type : EventType) (evt : Event) : Projection → Except Refusal Projection :=
  match type with
  | .ring0Genesis => materializeBirth evt
  | .beliefUpsert => materializeBeliefUpsert h evt
  | .workingStyleUpsert => materializeWorkingStyle h evt
  | .beliefPromote => materializeBeliefPromote evt
  | .beliefArchive => materializeBeliefArchive evt
  | .beliefSupersede => materializeBeliefSupersede evt
  | .selfModelSynthesize => materializeSelfModelSynthesis evt
  | .relationshipUpsert => materializeRelationshipLocked evt
  | .edgeCreate => materializeEdgeLocked h evt
  | .edgeArchive => materializeEdgeArchive evt
  | .systemWitnessed => materializeSystemWitnessed evt
  | .trustEpochAccepted => materializeTrustEpochAccepted evt
  | .networkNameClaimed => materializePublicName evt
  | .experienceCreate => materializeExperience evt
  | .consolidationRun => materializeFacilityRun .consolidationRun evt
  | .dreamRun => materializeFacilityRun .dreamRun evt
  | .intentionCreate => materializeIntentionCreate evt
  | .intentionStateChange => materializeIntentionStateChange evt
  | .commitmentPromised => materializeCommitmentPromised evt
  | .commitmentStateChange => materializeCommitmentStateChange evt

def materializeLocked (h : Host) (evt : Event) (p : Projection) : Except Refusal Projection := do
  let p ← mirrorInsert h evt p
  let type ← orRefuse (EventType.ofBytes? evt.type) (.unknownEventType evt.type)
  handle h type evt p

end AiiOs.Store
