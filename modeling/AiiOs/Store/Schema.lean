import AiiOs.Lib.Table
import AiiOs.Ledger.Event
import Mathlib.Algebra.Order.Ring.Rat

/-! internal/store, schema.sql: the rows of the derived tables, the columns of the
ephemeral ones that admission reads, and the projection they make up. A column under a
`CHECK (… IN …)` is an enumeration; a REAL is the rational its float64 denotes. -/

namespace AiiOs.Store
open Lib Lib.Json

abbrev Text := List Char

/-- The value a column's text stands for, where the `CHECK` admits it. -/
def oneOf {α : Type} (names : List (String × α)) (t : Text) : Option α :=
  (names.find? fun p => p.1.toList = t).map Prod.snd

/-! ### Enumerations -/

inductive NodeType
  | value
  | workingStyle
  deriving DecidableEq, Repr

def NodeType.ofText? : Text → Option NodeType :=
  oneOf [("value", .value), ("working_style", .workingStyle)]

inductive EdgeType
  | derivedFrom
  | supports
  | contradicts
  | supersedes
  | reinforcedBy
  | shapedBy
  | interprets
  deriving DecidableEq, Repr

def EdgeType.ofText? : Text → Option EdgeType :=
  oneOf [("DERIVED_FROM", .derivedFrom), ("SUPPORTS", .supports), ("CONTRADICTS", .contradicts),
    ("SUPERSEDES", .supersedes), ("REINFORCED_BY", .reinforcedBy), ("SHAPED_BY", .shapedBy),
    ("INTERPRETS", .interprets)]

/-- `edge_type IN ('SUPPORTS','DERIVED_FROM','REINFORCED_BY')`. -/
def EdgeType.evidence : EdgeType → Bool
  | .supports | .derivedFrom | .reinforcedBy => true
  | _ => false

inductive Category
  | observation
  | reflection
  | work
  | learning
  | communication
  deriving DecidableEq, Repr

def Category.ofText? : Text → Option Category :=
  oneOf [("observation", .observation), ("reflection", .reflection), ("work", .work),
    ("learning", .learning), ("communication", .communication)]

inductive Provenance
  | self
  | operator
  | external
  | system
  | dream
  deriving DecidableEq, Repr

def Provenance.ofText? : Text → Option Provenance :=
  oneOf [("self", .self), ("operator", .operator), ("external", .external), ("system", .system),
    ("dream", .dream)]

inductive IntentionState
  | active
  | completed
  | abandoned
  deriving DecidableEq, Repr

def IntentionState.ofText? : Text → Option IntentionState :=
  oneOf [("active", .active), ("completed", .completed), ("abandoned", .abandoned)]

inductive CommitmentState
  | promised
  | inProgress
  | completed
  | abandoned
  | repaired
  deriving DecidableEq, Repr

def CommitmentState.ofText? : Text → Option CommitmentState :=
  oneOf [("promised", .promised), ("in_progress", .inProgress), ("completed", .completed),
    ("abandoned", .abandoned), ("repaired", .repaired)]

inductive CounterpartRole
  | operator
  | peer
  deriving DecidableEq, Repr

def CounterpartRole.ofText? : Text → Option CounterpartRole :=
  oneOf [("operator", .operator), ("peer", .peer)]

inductive TrustLevel
  | building
  | established
  | deep
  deriving DecidableEq, Repr

def TrustLevel.ofText? : Text → Option TrustLevel :=
  oneOf [("building", .building), ("established", .established), ("deep", .deep)]

inductive AutonomyLevel
  | supervised
  | trusted
  | autonomous
  deriving DecidableEq, Repr

def AutonomyLevel.ofText? : Text → Option AutonomyLevel :=
  oneOf [("supervised", .supervised), ("trusted", .trusted), ("autonomous", .autonomous)]

inductive RelationshipType
  | foundingOperator
  | operator
  | peer
  | other
  deriving DecidableEq, Repr

def RelationshipType.ofText? : Text → Option RelationshipType :=
  oneOf [("founding_operator", .foundingOperator), ("operator", .operator), ("peer", .peer),
    ("other", .other)]

/-! ### Derived tables -/

structure LedgerRow where
  seq : Nat
  prev : Bytes
  ts : Bytes
  type : Bytes
  ring : Int
  payload : Bytes
  content : Bytes
  deriving DecidableEq, Repr

structure Belief where
  id : Text
  statement : Text
  ring : Int
  nodeType : Option NodeType
  confidence : Rat
  evidenceCount : Nat
  archived : Bool
  confirmedAtTicks : Int
  firstSeq : Nat
  lastSeq : Nat
  supersededBy : Option Text
  deriving DecidableEq, Repr

structure SourceRef where
  sourceClass : Text
  id : Text
  deriving DecidableEq, Repr

/-- The references are kept as the list their JSON column denotes. -/
structure SelfModel where
  id : Text
  synthesisText : Text
  sourceEntityRefs : List SourceRef
  changesSinceLast : Text
  continuityThread : Text
  supersededBy : Option Text
  createdSeq : Nat
  createdAt : Bytes
  deriving DecidableEq, Repr

structure Experience where
  id : Text
  content : Text
  category : Option Category
  raw : Bool
  unmetabolized : Bool
  provenance : Provenance
  createdSeq : Nat
  createdAt : Bytes
  deriving DecidableEq, Repr

structure Intention where
  id : Text
  statement : Text
  state : IntentionState
  why : Text
  outcome : Option Text
  archived : Bool
  createdSeq : Nat
  updatedSeq : Nat
  deriving DecidableEq, Repr

structure Commitment where
  id : Text
  description : Text
  counterpartId : Text
  state : CommitmentState
  result : Option Text
  repairState : Option Text
  createdSeq : Nat
  updatedSeq : Nat
  deriving DecidableEq, Repr

structure Edge where
  id : Text
  fromId : Text
  toId : Text
  edgeType : EdgeType
  strength : Rat
  context : Option Text
  archived : Bool
  createdSeq : Nat
  deriving DecidableEq, Repr

structure Relationship where
  id : Text
  counterpartName : Text
  counterpartRole : CounterpartRole
  trustLevel : TrustLevel
  autonomyLevel : AutonomyLevel
  relationshipType : RelationshipType
  charterText : Text
  operatorApproval : Text
  supersededBy : Option Text
  createdSeq : Nat
  updatedSeq : Option Nat
  deriving DecidableEq, Repr

structure WitnessReceiptPayload where
  identityId : Text
  previousWitnessedLedgerOrdinal : Int
  previousWitnessedLedgerHash : Text
  ledgerOrdinal : Int
  ledgerHash : Text
  witnessedAt : Text
  witnessKeyId : Text
  witnessSigB64 : Text
  deriving DecidableEq, Repr

/-- The receipt is kept as the value its JSON column denotes. -/
structure WitnessReceipt where
  id : Nat
  anchoredSeq : Int
  receipt : WitnessReceiptPayload
  receivedAt : Text
  deriving DecidableEq, Repr

structure TrustEpoch where
  id : Nat
  root : Text
  trustEpoch : Int
  payloadSha256 : Text
  acceptedAt : Bytes
  deriving DecidableEq, Repr

structure PublicName where
  nameId : Text
  name : Text
  zone : Text
  claimedSeq : Nat
  claimedAt : Bytes
  deriving DecidableEq, Repr

/-- The tables a replay clears and rebuilds. -/
@[ext]
structure Derived where
  ledger : Table LedgerRow.seq
  beliefs : Table Belief.id
  selfModels : Table SelfModel.id
  experiences : Table Experience.id
  intentions : Table Intention.id
  commitments : Table Commitment.id
  edges : Table Edge.id
  relationships : Table Relationship.id
  witnessReceipts : List WitnessReceipt
  trustEpochs : List TrustEpoch
  publicName : Option PublicName

def Derived.empty : Derived :=
  ⟨.empty, .empty, .empty, .empty, .empty, .empty, .empty, .empty, [], [], none⟩

/-! ### Ephemeral tables -/

/-- A row of `conversations`; `details` is the object its JSON column denotes. -/
structure Turn where
  id : Text
  role : Text
  content : Text
  turnSeq : Nat
  kind : Text
  sourceId : Option Text
  details : List (Text × Value)

structure TurnAnnotation where
  turnSeq : Nat
  kind : Text
  payload : Text

structure Lifetime where
  birthAt : Bytes
  lifetimeTicks : Int
  lastTickAt : Bytes

/-- The ephemeral tables, as far as a modelled function reads or writes them, and the
records that rows of `work_sessions` and `outbox` refer to. -/
structure Live where
  conversations : List Turn
  annotations : List TurnAnnotation
  lifetime : Option Lifetime
  ledgerRefs : List Nat

/-- SQLite's own `sqlite_sequence`: the last number given to a row of the two tables
with `AUTOINCREMENT`. Clearing a table leaves it as it is. -/
@[ext]
structure Sequences where
  witnessReceipts : Nat
  trustEpochs : Nat
  deriving DecidableEq, Repr

/-- `deferred` is the `PRAGMA defer_foreign_keys` of the open transaction. -/
structure Projection extends Derived where
  live : Live
  sequences : Sequences
  deferred : Bool

def Projection.empty : Projection :=
  { Derived.empty with live := ⟨[], [], none, []⟩, sequences := ⟨0, 0⟩, deferred := false }

end AiiOs.Store
