import AiiOs.Store.Evidence
import AiiOs.Lib.Explore

/-! internal/store, standing.go: what a belief rests on, how many origins there are below
it, and the standing that follows. `jsonId` is SQLite's `json_extract(payload, '$.id')`. -/

namespace AiiOs.Store
open Lib Lib.Json AiiOs.Ledger List

def textLe (a b : Text) : Bool := bytesLe (Utf8.encode a) (Utf8.encode b)

/-- `ORDER BY created_seq, id`. -/
def edgeLe (a b : Edge) : Prop :=
  a.createdSeq < b.createdSeq ∨ (a.createdSeq = b.createdSeq ∧ textLe a.id b.id)

instance : DecidableRel edgeLe := fun a b => by unfold edgeLe; infer_instance

def standingEdgesFor (p : Projection) (id : Text) : List Edge :=
  (p.edges.rows.filter fun e => (e.fromId = id || e.toId = id) && !e.archived).insertionSort edgeLe

def standingIncomingEdges (p : Projection) (id : Text) : List Edge :=
  (p.edges.rows.filter fun e => e.toId = id && !e.archived).insertionSort edgeLe

/-! ### Evidence sources -/

/-- What an id names; `also` is the other thing it names, recorded later. -/
structure EvidenceSource where
  kind : OriginKind
  seq : Nat
  also : Option (OriginKind × Nat)
  deriving DecidableEq, Repr

def OriginKind.text : OriginKind → Text
  | .experience => "experience".toList
  | .belief => "belief".toList

def article : OriginKind → Text
  | .experience => "an experience".toList
  | .belief => "a belief".toList

def EvidenceSource.note (s : EvidenceSource) : Text :=
  match s.also with
  | none => []
  | some (kind, at_) =>
    "this id also names ".toList ++ article kind ++ " recorded later (record ".toList ++ decimal at_ ++
      "); it is read as the ".toList ++ s.kind.text ++ " recorded first (record ".toList ++
      decimal s.seq ++ ")".toList

inductive StandingError
  /-- A run marker after the dream's record that does not decode. -/
  | marker (seq : Nat)
  | noExperience (id : Text)
  deriving DecidableEq, Repr

section
variable (jsonId : Bytes → Option Text) (p : Projection)

/-- `SELECT MIN(seq) FROM ledger WHERE seq <= ? AND type = ? AND json_extract(payload, '$.id') = ?`. -/
def firstRecord (id : Text) (seq : Nat) : Option Nat :=
  ((p.ledger.rows.filter fun r => r.seq ≤ seq && r.type = bytesOf "experience.create" &&
    jsonId r.payload = some id).map LedgerRow.seq).min?

/-- None for an id that names no source; the one recorded first where it names two. -/
def evidenceSourceRead (id : Text) : Option EvidenceSource :=
  match p.beliefs.find? id with
  | none => (p.experiences.find? id).map fun x => ⟨.experience, x.createdSeq, none⟩
  | some b =>
    match p.experiences.find? id with
    | none => some ⟨.belief, b.firstSeq, none⟩
    | some x =>
      let seq := (firstRecord jsonId p id x.createdSeq).getD x.createdSeq
      if seq < b.firstSeq then some ⟨.experience, seq, some (.belief, b.firstSeq)⟩
      else some ⟨.belief, b.firstSeq, some (.experience, seq)⟩

def standingDreamRunWindow : Nat := 4096

/-- What went into the dream whose note is record `seq`, by the first run marker after it. -/
def dreamInputsOf (seq : Nat) : Except StandingError (List Text) :=
  match ((p.ledger.rows.filter fun r => seq < r.seq && r.seq ≤ seq + standingDreamRunWindow &&
      r.type = bytesOf "dream.run").insertionSort fun a b => a.seq ≤ b.seq).head? with
  | none => .ok []
  | some r =>
    match readFacilityRun r.payload with
    | none => .error (.marker seq)
    | some q => .ok (if seq ∈ q.outputs then q.inputs else [])

def restsOn (id : Text) : List Text :=
  ((standingIncomingEdges p id).filter fun e => e.fromId ≠ id && e.edgeType.evidence &&
    (evidenceSourceRead jsonId p e.fromId).isSome).map Edge.fromId

/-- The sources below one source, and whether it is an origin. -/
def openSource (id : Text) : Except StandingError (List Text × Bool) :=
  match evidenceSourceRead jsonId p id with
  | none => .ok ([], false)
  | some s =>
    match s.kind with
    | .experience =>
      match p.experiences.find? id with
      | none => .error (.noExperience id)
      | some x =>
        if x.provenance = .dream then do
          let inputs ← dreamInputsOf p x.createdSeq
          return if inputs ≠ [] then (inputs, false) else ([], true)
        else .ok ([], true)
    | .belief =>
      let rests := restsOn jsonId p id
      .ok (rests, rests = [])

def standingOriginBound : Nat := 512

def originsOf (claim : Text) (sources : List Text) : Except StandingError (Nat × Nat) := do
  let w ← explore (openSource jsonId p) standingOriginBound
    (sources.insertionSort fun a b => textLe a b) ⟨[claim], [], [], 0⟩
  return (w.found.length, w.turnedAway.length)

end

/-! ### The report -/

inductive Standing
  | new
  | confirmed
  | trusted
  | suspect
  deriving DecidableEq, Repr

inductive Reason
  | outending
  | contradiction
  | ghostSource
  | notCounted
  deriving DecidableEq, Repr

structure ReportEdge where
  edge : Edge
  sourceKind : Option OriginKind
  provenance : Option Provenance
  note : Text
  reason : Option Reason
  deriving DecidableEq, Repr

structure StandingReport where
  belief : Option Belief
  retired : Bool
  standing : Standing
  eligible : Bool
  qualifying : List ReportEdge
  qualifyingTotal : Nat
  excluded : List ReportEdge
  excludedTotal : Nat
  nextDetail : Option (Nat × Text)
  distinctSources : Nat
  distinctOrigins : Nat
  originsUnopened : Nat
  contradicted : Bool
  readHeadSeq : Nat
  deriving DecidableEq, Repr

structure StandingCursor where
  seq : Nat
  edgeId : Text

def standingDetailMax : Nat := 10

/-- The lived clock and the beliefs confirmed ahead of it, as they were at the start. -/
structure AnchorsAtStart where
  clock : Int
  ahead : List Text

def lifetimeTicks (p : Projection) : Int := (p.live.lifetime.map Lifetime.lifetimeTicks).getD 0

def readAnchorsAtStart (p : Projection) : AnchorsAtStart :=
  ⟨lifetimeTicks p, (p.beliefs.rows.filter fun b => lifetimeTicks p < b.confirmedAtTicks).map Belief.id⟩

section
variable (jsonId : Bytes → Option Text) (p : Projection)

def classify (id : Text) (e : Edge) : ReportEdge :=
  if e.toId ≠ id ∨ e.fromId = id then ⟨e, none, none, [], some .outending⟩
  else if e.edgeType = .contradicts then ⟨e, none, none, [], some .contradiction⟩
  else if e.edgeType.evidence then
    match evidenceSourceRead jsonId p e.fromId with
    | none => ⟨e, none, none, [], some .ghostSource⟩
    | some s => ⟨e, some s.kind, (p.experiences.find? e.fromId).map Experience.provenance, s.note, none⟩
  else ⟨e, none, none, [], some .notCounted⟩

def readEdges (id : Text) (every : Bool) : List ReportEdge :=
  (if every then standingEdgesFor p id else standingIncomingEdges p id).map (classify jsonId p id)

def ReportEdge.qualifies (r : ReportEdge) : Bool := r.reason = none

def sourcesOf (edges : List ReportEdge) : List Text :=
  ((edges.filter ReportEdge.qualifies).map fun r => r.edge.fromId).dedup

def afterCursor (cur : StandingCursor) (e : Edge) : Bool :=
  cur.seq < e.createdSeq || (e.createdSeq = cur.seq && !textLe e.id cur.edgeId)

/-- One edge more than is shown tells that there are more. -/
def windowOf (cur : Option StandingCursor) (edges : List ReportEdge) : List ReportEdge :=
  match cur with
  | none => []
  | some cur => (edges.filter fun r => afterCursor cur r.edge).take (standingDetailMax + 1)

def standingOf (contradicted confirmed : Bool) (confirmedAt anchor ticks : Int) : Standing :=
  if contradicted then .suspect
  else if confirmed then if 0 < confirmedAt ∧ 50 ≤ ticks - anchor then .trusted else .confirmed
  else .new

/-- With fewer than three sources the walk is not made. -/
def originsOfMany (claim : Text) (sources : List Text) : Except StandingError (Nat × Nat) :=
  if 3 ≤ sources.length then originsOf jsonId p claim sources else .ok (0, 0)

def standingReportRead (anchors : Option AnchorsAtStart) (id : Text) (cur : Option StandingCursor)
    (every : Bool) : Except StandingError StandingReport := do
  let edges := readEdges jsonId p id every
  let belief := p.beliefs.find? id
  let sources := sourcesOf edges
  let contradicted := edges.any fun r => r.reason = some .contradiction
  let (origins, unopened) ← originsOfMany jsonId p id sources
  let confirmed : Bool := 3 ≤ sources.length ∧ 3 ≤ origins
  let start := anchors.getD (readAnchorsAtStart p)
  let confirmedAt := (belief.map Belief.confirmedAtTicks).getD 0
  let anchor := if id ∈ start.ahead then start.clock else confirmedAt
  let window := windowOf cur edges
  let shown := window.take standingDetailMax
  return {
    belief := belief
    retired := belief.any fun b => b.archived || b.supersededBy ≠ none
    standing := standingOf contradicted confirmed confirmedAt anchor (lifetimeTicks p)
    eligible := confirmed && !contradicted
    qualifying := shown.filter ReportEdge.qualifies
    qualifyingTotal := edges.countP ReportEdge.qualifies
    excluded := shown.filter fun r => !r.qualifies
    excludedTotal := edges.countP fun r => !r.qualifies
    nextDetail :=
      if standingDetailMax < window.length then
        shown.getLast?.map fun r => (r.edge.createdSeq, r.edge.id)
      else none
    distinctSources := sources.length
    distinctOrigins := origins
    originsUnopened := unopened
    contradicted := contradicted
    readHeadSeq := maxSeq p.ledger }

/-! ### Leaf sources -/

def IsSource (id : Text) : Prop := (evidenceSourceRead jsonId p id).isSome

/-- Live evidence for `id` from another source. -/
def LiveSupport (id source : Text) : Prop :=
  source ≠ id ∧ IsSource jsonId p source ∧
    ∃ e ∈ p.edges.rows, e.evidenceFor id ∧ e.fromId = source

/-- What went into an experience: the inputs of the run that noted a dream. -/
def wentInto (x : Experience) : List Text :=
  if x.provenance = .dream then (dreamInputsOf p x.createdSeq).toOption.getD [] else []

/-- `b` lies directly under `a`: it supports the belief, or went into the dream. -/
def Under (a b : Text) : Prop :=
  match (evidenceSourceRead jsonId p a).map EvidenceSource.kind with
  | none => False
  | some .belief => LiveSupport jsonId p a b
  | some .experience => ∃ x ∈ p.experiences.find? a, b ∈ wentInto p x

/-- A source with nothing under it: a belief without live support, or an experience that is
no dream with known inputs. -/
structure LeafSource (id : Text) : Prop where
  source : IsSource jsonId p id
  bare : ∀ b, ¬ Under jsonId p id b

/-- The leaf sources a belief rests on, by ways that do not lead through the belief. -/
def leafSources (claim : Text) : Set Text :=
  leavesWithin (Under jsonId p) (LeafSource jsonId p) claim
    (sourcesOf (readEdges jsonId p claim false))

end

variable {jsonId : Bytes → Option Text} {p : Projection}

variable {id : Text} {source : Text}

theorem exists_experience {s : EvidenceSource} (h : evidenceSourceRead jsonId p id = some s)
    (hk : s.kind = .experience) : ∃ x, p.experiences.find? id = some x := by
  rw [evidenceSourceRead] at h
  cases hx : p.experiences.find? id with
  | some x => exact ⟨x, rfl⟩
  | none =>
    rw [hx] at h
    split at h
    · cases h
    rename_i b hb
    cases h
    cases hk

theorem mem_restsOn : source ∈ restsOn jsonId p id ↔ LiveSupport jsonId p id source := by
  simp only [restsOn, standingIncomingEdges, List.mem_map, mem_filter, mem_insertionSort,
    LiveSupport, Edge.evidenceFor, Bool.and_eq_true, decide_eq_true_eq]
  constructor
  · rintro ⟨e, ⟨⟨he, hto, harch⟩, ⟨hne, hev⟩, hsrc⟩, rfl⟩
    exact ⟨hne, hsrc, e, he, ⟨⟨hto, harch⟩, hev⟩, rfl⟩
  · rintro ⟨hne, hsrc, e, he, ⟨⟨hto, harch⟩, hev⟩, rfl⟩
    exact ⟨e, ⟨⟨he, hto, harch⟩, ⟨hne, hev⟩, hsrc⟩, rfl⟩

theorem openSource_eq_ok {below : List Text} {leaf : Bool}
    (h : openSource jsonId p id = .ok (below, leaf)) :
    (∀ b, b ∈ below ↔ Under jsonId p id b) ∧ (leaf ↔ IsSource jsonId p id ∧ below = []) := by
  rw [openSource] at h
  simp only [Under, IsSource]
  cases hsrc : evidenceSourceRead jsonId p id with
  | none =>
    rw [hsrc] at h
    cases h
    simp
  | some s =>
    rw [hsrc] at h
    simp only [Option.map_some, Option.isSome_some, true_and]
    cases hk : s.kind with
    | belief =>
      simp only [hk] at h
      cases h
      exact ⟨fun b => mem_restsOn, by simp⟩
    | experience =>
      obtain ⟨x, hx⟩ := exists_experience hsrc hk
      simp only [hk, hx] at h
      have hunder : ∀ b, (∃ x' ∈ p.experiences.find? id, b ∈ wentInto p x') ↔ b ∈ wentInto p x := by simp [hx]
      simp only [hunder]
      split_ifs at h with hdream
      · obtain ⟨inputs, hinputs, h⟩ := bind_eq_ok.mp h
        have hwent : wentInto p x = inputs := by
          rw [wentInto, if_pos hdream, hinputs]
          rfl
        rw [hwent]
        by_cases hempty : inputs = []
        · rw [if_neg (by simpa using hempty)] at h
          cases h
          simp [hempty]
        · rw [if_pos hempty] at h
          cases h
          simp [hempty]
      · have hwent : wentInto p x = [] := by rw [wentInto, if_neg hdream]
        cases h
        simp [hwent]

theorem openSource_opens : Opens (openSource jsonId p) (Under jsonId p) (LeafSource jsonId p) where
  under h := (openSource_eq_ok h).1
  leaf h := by
    obtain ⟨hunder, hleaf⟩ := openSource_eq_ok h
    rw [hleaf]
    constructor
    · rintro ⟨hsrc, rfl⟩
      exact ⟨hsrc, fun b hb => not_mem_nil ((hunder b).mpr hb)⟩
    · rintro ⟨hsrc, hbare⟩
      exact ⟨hsrc, eq_nil_iff_forall_not_mem.mpr fun b hb => hbare b ((hunder b).mp hb)⟩

theorem openSource_eq_error {e : StandingError} (h : openSource jsonId p id = .error e) :
    ∃ r ∈ p.ledger.rows, r.type = bytesOf "dream.run" ∧ readFacilityRun r.payload = none := by
  rw [openSource] at h
  split at h
  · cases h
  rename_i s hsrc
  cases hk : s.kind with
  | belief =>
    simp only [hk] at h
    cases h
  | experience =>
    obtain ⟨x, hx⟩ := exists_experience hsrc hk
    simp only [hk, hx] at h
    split_ifs at h
    cases hinputs : dreamInputsOf p x.createdSeq with
    | ok inputs =>
      rw [hinputs] at h
      cases h
    | error e' =>
      rw [dreamInputsOf] at hinputs
      split at hinputs
      · cases hinputs
      · rename_i r hr
        split at hinputs
        · rename_i hnone
          have hmem := (mem_insertionSort _).mp (mem_of_head? hr)
          simp only [mem_filter, Bool.and_eq_true, decide_eq_true_eq] at hmem
          exact ⟨r, hmem.1, hmem.2.2, hnone⟩
        · cases hinputs

/-! ### The sources of a report -/

theorem classify_edge (id : Text) (e : Edge) : (classify jsonId p id e).edge = e := by
  rw [classify]
  split_ifs
  · rfl
  · rfl
  · cases evidenceSourceRead jsonId p e.fromId <;> rfl
  · rfl

theorem classify_qualifies {e : Edge} : (classify jsonId p id e).qualifies ↔
    e.toId = id ∧ e.fromId ≠ id ∧ e.edgeType.evidence ∧ IsSource jsonId p e.fromId := by
  rw [classify, ReportEdge.qualifies, IsSource]
  split_ifs with hdir hcon hev
  · simp only [decide_false, Bool.false_eq_true, false_iff]
    rintro ⟨hto, hfrom, -⟩
    exact hdir.elim (fun h => h hto) hfrom
  · simp [hcon, EdgeType.evidence]
  · rw [not_or, not_not] at hdir
    cases evidenceSourceRead jsonId p e.fromId <;> simp [hdir, hev]
  · simp [hev]

theorem mem_sourcesOf (every : Bool) :
    source ∈ sourcesOf (readEdges jsonId p id every) ↔ LiveSupport jsonId p id source := by
  have hedges : source ∈ sourcesOf (readEdges jsonId p id every) ↔
      ∃ e ∈ p.edges.rows, e.archived = false ∧ (classify jsonId p id e).qualifies ∧ e.fromId = source := by
    simp only [sourcesOf, mem_dedup, List.mem_map, mem_filter, readEdges]
    constructor
    · rintro ⟨r, ⟨⟨e, he, rfl⟩, hq⟩, rfl⟩
      have harch : e ∈ p.edges.rows ∧ e.archived = false := by
        cases every <;> simp [standingEdgesFor, standingIncomingEdges] at he
        · exact ⟨he.1, he.2.2⟩
        · exact ⟨he.1, he.2.2⟩
      exact ⟨e, harch.1, harch.2, hq, by rw [classify_edge]⟩
    · rintro ⟨e, he, harch, hq, rfl⟩
      have hto := (classify_qualifies.mp hq).1
      refine ⟨_, ⟨⟨e, ?_, rfl⟩, hq⟩, by rw [classify_edge]⟩
      cases every <;> simp [standingEdgesFor, standingIncomingEdges, he, harch, hto]
  rw [hedges]
  simp only [classify_qualifies, LiveSupport, Edge.evidenceFor, Bool.and_eq_true, decide_eq_true_eq,
    Bool.not_eq_true']
  constructor
  · rintro ⟨e, he, harch, ⟨hto, hne, hev, hsrc⟩, rfl⟩
    exact ⟨hne, hsrc, e, he, ⟨⟨hto, harch⟩, hev⟩, rfl⟩
  · rintro ⟨hne, hsrc, e, he, ⟨⟨hto, harch⟩, hev⟩, rfl⟩
    exact ⟨e, he, harch, ⟨hto, hne, hev, hsrc⟩, rfl⟩

/-! ### Origins are leaf sources -/

theorem originsOf_counts {claim : Text} {every : Bool} {origins unopened : Nat}
    (h : originsOf jsonId p claim (sourcesOf (readEdges jsonId p claim every)) = .ok (origins, unopened)) :
    origins ≤ (leafSources jsonId p claim).ncard ∧
      (unopened = 0 → origins = (leafSources jsonId p claim).ncard) := by
  obtain ⟨w, hw, h⟩ := bind_eq_ok.mp h
  cases h
  have hwalk := Walking.start.explore openSource_opens hw
  have hsame : leafSources jsonId p claim = leavesWithin (Under jsonId p) (LeafSource jsonId p) claim
      ((sourcesOf (readEdges jsonId p claim every)).insertionSort fun a b => textLe a b) := by
    refine leavesWithin_congr fun a => ?_
    rw [mem_insertionSort, mem_sourcesOf, mem_sourcesOf]
  have hfinite : (leafSources jsonId p claim).Finite := by
    refine (finite_toSet (p.beliefs.rows.map Belief.id ++ p.experiences.rows.map Experience.id)).subset ?_
    rintro id ⟨-, hleaf⟩
    have hsource := hleaf.source
    by_contra hnone
    obtain ⟨hb, he⟩ := not_or.mp (mt mem_append.mpr hnone)
    rw [IsSource, evidenceSourceRead, Table.find?_eq_none.mpr hb, Table.find?_eq_none.mpr he] at hsource
    cases hsource
  rw [hsame] at hfinite ⊢
  exact ⟨hwalk.length_found_le hfinite, fun hall => hwalk.length_found_eq (length_eq_zero_iff.mp hall)⟩

/-- For every belief of every projection: the walk below it ends, in a count of origins or
at a run marker that does not decode; the count is at most the number of leaf sources
under the belief and exact where nothing was left unopened; and an eligible belief rests
on three leaf sources. -/
theorem origins_are_leaf_sources (jsonId : Bytes → Option Text) (p : Projection) (id : Text)
    (every : Bool) :
    (∀ origins unopened,
        originsOf jsonId p id (sourcesOf (readEdges jsonId p id every)) = .ok (origins, unopened) →
        origins ≤ (leafSources jsonId p id).ncard ∧
          (unopened = 0 → origins = (leafSources jsonId p id).ncard)) ∧
      (∀ e, originsOf jsonId p id (sourcesOf (readEdges jsonId p id every)) = .error e →
        ∃ r ∈ p.ledger.rows, r.type = bytesOf "dream.run" ∧ readFacilityRun r.payload = none) ∧
      ∀ anchors cur report, standingReportRead jsonId p anchors id cur every = .ok report →
        report.eligible → 3 ≤ (leafSources jsonId p id).ncard := by
  refine ⟨fun _ _ => originsOf_counts, ?_, ?_⟩
  · intro e he
    rw [originsOf] at he
    cases hw : explore (openSource jsonId p) standingOriginBound
        ((sourcesOf (readEdges jsonId p id every)).insertionSort fun a b => textLe a b)
        ⟨[id], [], [], 0⟩ with
    | ok w =>
      rw [hw] at he
      cases he
    | error e' =>
      obtain ⟨a, ha⟩ := explore_eq_error hw
      exact openSource_eq_error ha
  · intro anchors cur report hreport heligible
    obtain ⟨⟨origins, unopened⟩, horigins, hreport⟩ := bind_eq_ok.mp hreport
    cases hreport
    simp only [Bool.and_eq_true, decide_eq_true_eq] at heligible
    obtain ⟨⟨hsources, hthree⟩, -⟩ := heligible
    rw [originsOfMany, if_pos hsources] at horigins
    have := (originsOf_counts horigins).1
    omega

/-- A belief that rests on three experiences. -/
def threeSources : List Arrival :=
  [experienceArrival 1 "e" "x", experienceArrival 2 "f" "y", experienceArrival 3 "g" "z",
    plainArrival 4 "belief.upsert"
      ("\x7b\"id\":\"b\",\"statement\":\"s\",\"origin_refs\":[" ++
        "\x7b\"kind\":\"experience\",\"id\":\"e\"\x7d," ++
        "\x7b\"kind\":\"experience\",\"id\":\"f\"\x7d,\x7b\"kind\":\"experience\",\"id\":\"g\"\x7d]\x7d")]

theorem origins_are_leaf_sources_three : ∃ p report, accepted plainHost threeSources = .ok p ∧
    standingReportRead (fun _ => none) p none ['b'] none true = .ok report ∧ report.eligible ∧
      3 = (leafSources (fun _ => none) p ['b']).ncard := by
  obtain ⟨p, hp, hsources, hopen, hedges⟩ : ∃ p, accepted plainHost threeSources = .ok p ∧
      sourcesOf (readEdges (fun _ => none) p ['b'] true) = [['e'], ['f'], ['g']] ∧
      (∀ id ∈ [['e'], ['f'], ['g']], openSource (fun _ => none) p id = .ok ([], true)) ∧
      ((readEdges (fun _ => none) p ['b'] true).any fun r => r.reason = some .contradiction) = false :=
    exists_ok (by decide +kernel)
  have hsort : [['e'], ['f'], ['g']].insertionSort (fun a b => textLe a b) =
    [['e'], ['f'], ['g']] := by decide
  have horigins : originsOf (fun _ => none) p ['b'] [['e'], ['f'], ['g']] = .ok (3, 0) := by
    simp [originsOf, hsort, explore, standingOriginBound, hopen, Walked.enter, bind, Except.bind,
      pure, Except.pure]
  obtain ⟨report, hok, heligible⟩ : ∃ report,
      standingReportRead (fun _ => none) p none ['b'] none true = .ok report ∧ report.eligible := by
    refine ⟨_, bind_eq_ok.mpr ⟨(3, 0), ?_, rfl⟩, ?_⟩
    · rw [originsOfMany, hsources]
      exact horigins
    · simp [hsources, hedges]
  obtain ⟨hcount, -, -⟩ := origins_are_leaf_sources (fun _ => none) p ['b'] true
  rw [hsources] at hcount
  exact ⟨p, report, hp, hok, heligible, (hcount 3 0 horigins).2 rfl⟩

end AiiOs.Store
