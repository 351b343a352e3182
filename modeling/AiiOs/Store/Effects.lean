import AiiOs.Store.Admission
import AiiOs.Lib.Fold

/-! What an accepted event leaves in the beliefs, the edges and the experiences. Most
handlers are quiet there; the others get an equation or a step lemma each. -/

namespace AiiOs.Store
open Lib Lib.Json AiiOs.Ledger Table

variable {α : Type} {p q : Projection} {type : EventType} {evt : Event} {h : Host}

variable {ε : Type} {c : Prop} {e : Refusal} {u : Unit} {a : α} {o : Option α}

@[simp] theorem pure_eq_ok {a b : α} : (pure a : Except ε α) = .ok b ↔ a = b := by
  simp [pure, Except.pure]

@[simp] theorem require_eq_ok [Decidable c] : require c e = .ok u ↔ c := by
  rw [require]
  split_ifs with h <;> simp [h]

@[simp] theorem allow_eq_ok [Decidable c] {e : AdmissionError} : allow c e = .ok u ↔ c := by
  rw [allow]
  split_ifs with h <;> simp [h]

@[simp] theorem orRefuse_eq_ok : orRefuse o e = .ok a ↔ o = some a := by
  cases o <;> simp [orRefuse]

@[simp] theorem orDeny_eq_ok {e : AdmissionError} : orDeny o e = .ok a ↔ o = some a := by
  cases o <;> simp [orDeny]

@[simp] theorem passed_eq_ok {x : Except Refusal α} : passed x = .ok a ↔ x = .ok a := by
  cases x <;> simp [passed, Except.mapError]

/-! ### Facility runs -/

section
variable {P : Projection → Prop} (hinput : ∀ p id, P p → P { p with
    experiences :=
      p.experiences.update (fun x => x.id = id) (fun x => { x with raw := false }) fun _ => rfl })
  (hstamp : ∀ p (c : ConfirmedCrossing), P p → P { p with
    beliefs := p.beliefs.update (fun b => b.id = c.id && b.confirmedAtTicks = 0)
      (fun b => { b with confirmedAtTicks := c.ticks }) fun _ => rfl })

include hinput in
theorem consumeInputs_invariant {inputs : List Text} (h : consumeInputs type inputs p = .ok q)
    (hp : P p) : P q := by
  induction inputs generalizing p with
  | nil =>
    cases h
    exact hp
  | cons id inputs ih =>
    rw [consumeInputs, bind_eq_ok] at h
    obtain ⟨-, -, h⟩ := h
    exact ih h (hinput p id hp)

include hstamp in
theorem stampConfirmed_invariant {confirmed : List ConfirmedCrossing}
    (h : stampConfirmed type confirmed p = .ok q) (hp : P p) : P q := by
  induction confirmed generalizing p with
  | nil =>
    cases h
    exact hp
  | cons c confirmed ih =>
    simp only [stampConfirmed, bind_eq_ok] at h
    obtain ⟨-, -, -, -, h⟩ := h
    exact ih h (hstamp p c hp)

include hinput hstamp in
theorem materializeFacilityRun_invariant (h : materializeFacilityRun type evt p = .ok q)
    (hp : P p) : P q := by
  simp only [materializeFacilityRun, bind_eq_ok] at h
  obtain ⟨_, -, _, -, _, -, r, hr, h⟩ := h
  exact stampConfirmed_invariant hstamp h (consumeInputs_invariant hinput hr hp)

end

/-! ### Quiet handlers -/

/-- No edge changes, no belief gains or loses evidence or becomes active, and no id is
taken or freed. -/
structure Quiet (p q : Projection) : Prop where
  edges : q.edges = p.edges
  beliefs : ∀ b' ∈ q.beliefs.rows, ∃ b ∈ p.beliefs.rows, b'.id = b.id ∧
    b'.evidenceCount = b.evidenceCount ∧ (b'.active → b.active)
  belief_ids : ∀ id, q.beliefs.Holds id ↔ p.beliefs.Holds id
  experience_ids : ∀ id, q.experiences.Holds id ↔ p.experiences.Holds id

theorem Quiet.of_eq (he : q.edges = p.edges) (hb : q.beliefs = p.beliefs)
    (hx : q.experiences = p.experiences) : Quiet p q where
  edges := he
  beliefs b hm := ⟨b, hb ▸ hm, rfl, rfl, id⟩
  belief_ids _ := by rw [hb]
  experience_ids _ := by rw [hx]

theorem Quiet.trans {r : Projection} (h : Quiet p q) (h' : Quiet q r) : Quiet p r where
  edges := h'.edges.trans h.edges
  beliefs b'' hb'' := by
    obtain ⟨b', hb', hid', hcount', hact'⟩ := h'.beliefs b'' hb''
    obtain ⟨b, hb, hid, hcount, hact⟩ := h.beliefs b' hb'
    exact ⟨b, hb, hid'.trans hid, hcount'.trans hcount, fun ha => hact (hact' ha)⟩
  belief_ids id := (h'.belief_ids id).trans (h.belief_ids id)
  experience_ids id := (h'.experience_ids id).trans (h.experience_ids id)

theorem quiet_update (p : Projection) (c : Belief → Bool) (f : Belief → Belief)
    (hid : ∀ b, (f b).id = b.id) (hcount : ∀ b, (f b).evidenceCount = b.evidenceCount)
    (hact : ∀ b, (f b).active → b.active) :
    Quiet p { p with beliefs := p.beliefs.update c f hid } where
  edges := rfl
  beliefs b' hb' := by
    obtain ⟨b, hb, rfl⟩ := (mem_update hid).mp hb'
    refine ⟨b, hb, ?_⟩
    split_ifs
    · exact ⟨hid b, hcount b, hact b⟩
    · exact ⟨rfl, rfl, id⟩
  belief_ids _ := holds_update hid
  experience_ids _ := Iff.rfl

theorem materializeFacilityRun_quiet (h : materializeFacilityRun type evt p = .ok q) : Quiet p q := by
  refine materializeFacilityRun_invariant (fun r id hr => hr.trans ?_) (fun r c hr => hr.trans ?_) h
    (.of_eq rfl rfl rfl)
  · exact ⟨rfl, fun b hb => ⟨b, hb, rfl, rfl, fun ha => ha⟩, fun _ => .rfl, fun _ => by simp⟩
  · exact quiet_update r _ _ _ (fun _ => rfl) fun _ ha => ha

theorem materializeBeliefPromote_quiet (h : materializeBeliefPromote evt p = .ok q) : Quiet p q := by
  simp only [materializeBeliefPromote, bind_eq_ok, pure_eq_ok] at h
  obtain ⟨_, -, _, -, _, -, rfl⟩ := h
  exact quiet_update p _ _ _ (fun _ => rfl) fun _ ha => ha

theorem materializeBeliefArchive_quiet (h : materializeBeliefArchive evt p = .ok q) : Quiet p q := by
  simp only [materializeBeliefArchive, bind_eq_ok, pure_eq_ok] at h
  obtain ⟨_, -, _, -, rfl⟩ := h
  refine quiet_update p _ _ _ (fun _ => rfl) fun b ha => ?_
  simp [Belief.active] at ha

/-! ### Handlers that touch none of the three tables -/

structure Untouched (p q : Projection) : Prop where
  edges : q.edges = p.edges
  beliefs : q.beliefs = p.beliefs
  experiences : q.experiences = p.experiences

theorem Untouched.quiet (h : Untouched p q) : Quiet p q := .of_eq h.edges h.beliefs h.experiences

/-- None of the tables that other rows refer to is touched. -/
structure Aside (p q : Projection) : Prop extends Untouched p q where
  relationships : q.relationships = p.relationships
  commitments : q.commitments = p.commitments

def isAside (type : EventType) : Bool :=
  type ∈ [.ring0Genesis, .selfModelSynthesize, .systemWitnessed, .trustEpochAccepted,
    .networkNameClaimed, .intentionCreate, .intentionStateChange]

theorem handle_aside (hq : handle h type evt p = .ok q) (ht : isAside type) : Aside p q := by
  cases type with
  | ring0Genesis =>
    cases hq
    exact ⟨⟨rfl, rfl, rfl⟩, rfl, rfl⟩
  | selfModelSynthesize =>
    simp only [handle, materializeSelfModelSynthesis, bind_eq_ok] at hq
    obtain ⟨_, -, _, -, _, -, hq⟩ := hq
    cases hq
    exact ⟨⟨rfl, rfl, rfl⟩, rfl, rfl⟩
  | systemWitnessed =>
    simp only [handle, materializeSystemWitnessed, bind_eq_ok] at hq
    obtain ⟨⟨receipt, before⟩, -, hq⟩ := hq
    cases receipt with
    | none =>
      split_ifs at hq
      cases hq
      exact ⟨⟨rfl, rfl, rfl⟩, rfl, rfl⟩
    | some r =>
      obtain ⟨-, -, hq⟩ := bind_eq_ok.mp hq
      cases hq
      exact ⟨⟨rfl, rfl, rfl⟩, rfl, rfl⟩
  | trustEpochAccepted =>
    simp only [handle, materializeTrustEpochAccepted, bind_eq_ok, pure_eq_ok] at hq
    obtain ⟨_, -, _, -, rfl⟩ := hq
    exact ⟨⟨rfl, rfl, rfl⟩, rfl, rfl⟩
  | networkNameClaimed =>
    simp only [handle, materializePublicName, bind_eq_ok, pure_eq_ok] at hq
    obtain ⟨_, -, _, -, _, -, rfl⟩ := hq
    exact ⟨⟨rfl, rfl, rfl⟩, rfl, rfl⟩
  | intentionCreate =>
    simp only [handle, materializeIntentionCreate, bind_eq_ok, pure_eq_ok] at hq
    obtain ⟨_, -, _, -, _, -, rfl⟩ := hq
    exact ⟨⟨rfl, rfl, rfl⟩, rfl, rfl⟩
  | intentionStateChange =>
    simp only [handle, materializeIntentionStateChange, bind_eq_ok, pure_eq_ok] at hq
    obtain ⟨_, -, _, -, _, -, rfl⟩ := hq
    exact ⟨⟨rfl, rfl, rfl⟩, rfl, rfl⟩
  | _ => cases ht

def isPlain (type : EventType) : Bool :=
  type ∈ [.ring0Genesis, .selfModelSynthesize, .relationshipUpsert, .systemWitnessed,
    .trustEpochAccepted, .networkNameClaimed, .intentionCreate, .intentionStateChange,
    .commitmentPromised, .commitmentStateChange]

theorem handle_untouched (hq : handle h type evt p = .ok q) (ht : isPlain type) : Untouched p q := by
  by_cases haside : isAside type
  · exact (handle_aside hq haside).toUntouched
  cases type with
  | relationshipUpsert =>
    simp only [handle, materializeRelationshipLocked, bind_eq_ok, pure_eq_ok] at hq
    obtain ⟨_, -, _, -, _, -, _, -, _, -, rfl⟩ := hq
    exact ⟨rfl, rfl, rfl⟩
  | commitmentPromised =>
    simp only [handle, materializeCommitmentPromised, bind_eq_ok, pure_eq_ok] at hq
    obtain ⟨_, -, _, -, _, -, _, -, rfl⟩ := hq
    exact ⟨rfl, rfl, rfl⟩
  | commitmentStateChange =>
    simp only [handle, materializeCommitmentStateChange, bind_eq_ok, pure_eq_ok] at hq
    obtain ⟨_, -, _, -, _, -, rfl⟩ := hq
    exact ⟨rfl, rfl, rfl⟩
  | _ => first | exact absurd rfl haside | cases ht

def isQuiet (type : EventType) : Bool :=
  !(type ∈ [.beliefUpsert, .workingStyleUpsert, .beliefSupersede, .edgeCreate, .edgeArchive,
    .experienceCreate])

theorem handle_quiet (hq : handle h type evt p = .ok q) (ht : isQuiet type) : Quiet p q := by
  by_cases hplain : isPlain type
  · exact (handle_untouched hq hplain).quiet
  · cases type with
    | beliefPromote => exact materializeBeliefPromote_quiet hq
    | beliefArchive => exact materializeBeliefArchive_quiet hq
    | consolidationRun => exact materializeFacilityRun_quiet hq
    | dreamRun => exact materializeFacilityRun_quiet hq
    | _ => first | exact absurd rfl hplain | cases ht

/-! ### The other handlers -/

theorem materializeLocked_eq_ok (hq : materializeLocked h evt p = .ok q) :
    ∃ type ledger, EventType.ofBytes? evt.type = some type ∧
      handle h type evt { p with ledger := ledger } = .ok q := by
  simp only [materializeLocked, mirrorInsert, bind_eq_ok, pure_eq_ok, orRefuse_eq_ok] at hq
  obtain ⟨_, ⟨_, -, ledger, -, rfl⟩, type, htype, hq⟩ := hq
  exact ⟨type, ledger, htype, hq⟩

theorem insertEdge?_eq_some {edges edges' : Table Edge.id} {e : Edge}
    (h : insertEdge? edges e = some edges') : ∃ hfree, edges' = edges.push e hfree := by
  rw [insertEdge?] at h
  split_ifs at h
  exact insert?_eq_some.mp h

theorem materializeBeliefSupersede_cases (h : materializeBeliefSupersede evt p = .ok q) :
    ∃ r, Quiet p r ∧
      (q = r ∨ ∃ e hfree, e.edgeType = .supersedes ∧ q = { r with edges := r.edges.push e hfree }) := by
  simp only [materializeBeliefSupersede, bind_eq_ok, pure_eq_ok] at h
  obtain ⟨w, -, _, -, _, -, rfl⟩ := h
  refine ⟨_, quiet_update p (·.id = w.oldId)
    (fun b => { b with supersededBy := some w.newId, lastSeq := evt.seq }) (fun _ => rfl)
    (fun _ => rfl) fun b ha => ?_, ?_⟩
  · simp [Belief.active] at ha
  · cases hins : insertEdge? p.edges _ with
    | none => exact .inl rfl
    | some edges =>
      obtain ⟨hfree, rfl⟩ := insertEdge?_eq_some hins
      exact .inr ⟨_, hfree, rfl, rfl⟩

theorem materializeEdgeLocked_eq_ok (hq : materializeEdgeLocked h evt p = .ok q) :
    ∃ e hfree, e.archived = false ∧
      q = { p with
        edges := p.edges.push e hfree
        beliefs := if e.edgeType.evidence then countEvidence p.beliefs e.toId (some evt.seq)
          else p.beliefs } := by
  simp only [materializeEdgeLocked, bind_eq_ok, pure_eq_ok, orRefuse_eq_ok] at hq
  obtain ⟨w, -, type, -, _, -, edges, hins, rfl⟩ := hq
  obtain ⟨hfree, rfl⟩ := insertEdge?_eq_some hins
  exact ⟨_, hfree, rfl, rfl⟩

theorem materializeEdgeArchive_eq_ok (h : materializeEdgeArchive evt p = .ok q) :
    ∃ w e, readId evt.payload = some w ∧ p.edges.find? w.id = some e ∧ q = { p with
        edges := archiveEdge p.edges w.id
        beliefs := if e.edgeType.evidence then p.beliefs.update (fun b => b.id = e.toId)
          (fun b => { b with evidenceCount := evidenceEdges (archiveEdge p.edges w.id) e.toId })
          fun _ => rfl else p.beliefs } := by
  simp only [materializeEdgeArchive, bind_eq_ok, pure_eq_ok, orRefuse_eq_ok] at h
  obtain ⟨w, hw, e, he, rfl⟩ := h
  exact ⟨w, e, hw, he, rfl⟩

def startsRaw (w : ExperiencePayload) : Bool :=
  !(w.unmetabolized || w.earlierPrivate) && w.raw ≠ some false

structure Wrote (w : ExperiencePayload) (x : Experience) : Prop where
  id : x.id = w.id
  content : x.content = w.content
  raw : x.raw = startsRaw w

theorem materializeExperience_eq_ok (h : materializeExperience evt p = .ok q) :
    ∃ w x, readExperience evt.payload = some w ∧ Wrote w x ∧
      q = { p with experiences := p.experiences.replace x } := by
  simp only [materializeExperience, bind_eq_ok, pure_eq_ok, orRefuse_eq_ok] at h
  obtain ⟨w, hw, _, -, _, -, rfl⟩ := h
  exact ⟨w, _, hw, ⟨rfl, rfl, rfl⟩, rfl⟩

structure Fresh (b : Belief) : Prop where
  evidenceCount : b.evidenceCount = 0
  active : b.active
  statement : b.statement ≠ []

def writtenBelief (h : Host) (evt : Event) : Option (Text × Option (List BeliefOrigin)) :=
  match EventType.ofBytes? evt.type with
  | some .beliefUpsert => (readBeliefUpsert h.float64 evt.payload).map fun w => (w.id, w.originRefs)
  | some .workingStyleUpsert => (readWorkingStyle h.float64 evt.payload).map fun w => (w.id, w.originRefs)
  | _ => none

def writtenText (h : Host) (evt : Event) : Option Text := match EventType.ofBytes? evt.type with
  | some .beliefUpsert => (readBeliefUpsert h.float64 evt.payload).map fun w =>
    beliefText .beliefUpsert w.statement w.content
  | some .workingStyleUpsert => (readWorkingStyle h.float64 evt.payload).map (·.content)
  | _ => none

theorem writtenBelief_eq_none (htype : EventType.ofBytes? evt.type = some type)
    (ht : isBeliefText type = false) : writtenBelief h evt = none := by
  rw [writtenBelief, htype]
  cases type <;> first | rfl | cases ht

theorem handle_belief (htype : EventType.ofBytes? evt.type = some type) (ht : isBeliefText type)
    (hq : handle h type evt p = .ok q) :
    ∃ b refs, Fresh b ∧ writtenBelief h evt = some (b.id, refs) ∧ writtenText h evt = some b.statement ∧
      materializeBeliefOriginsLocked type evt.seq b.id refs { p
      with beliefs := upsertBelief p.beliefs b } = .ok q := by
  cases type with
  | beliefUpsert =>
    simp only [handle, materializeBeliefUpsert, bind_eq_ok, orRefuse_eq_ok, require_eq_ok] at hq
    obtain ⟨w, hw, _, hne, _, -, _, -, hq⟩ := hq
    exact ⟨_, w.originRefs, ⟨rfl, rfl, hne⟩, by simp [writtenBelief, htype, hw],
      by simp [writtenText, htype, hw, beliefText], hq⟩
  | workingStyleUpsert =>
    simp only [handle, materializeWorkingStyle, bind_eq_ok, orRefuse_eq_ok, require_eq_ok] at hq
    obtain ⟨w, hw, _, hne, _, -, hq⟩ := hq
    exact ⟨_, w.originRefs, ⟨rfl, rfl, hne⟩, by simp [writtenBelief, htype, hw],
      by simp [writtenText, htype, hw], hq⟩
  | _ => cases ht

variable {seq i : Nat} {target : Text} {P : Projection → Prop}

theorem insertOrigin_cases {origin : Text} (h : insertOrigin type seq i origin target p = .ok q) :
    q = p ∨ ∃ e hfree, e.fromId = origin ∧ e.toId = target ∧ e.edgeType = .derivedFrom ∧
      e.archived = false ∧
      q = { p with edges := p.edges.push e hfree, beliefs := countEvidence p.beliefs target none } := by
  rw [insertOrigin] at h
  split_ifs at h
  · cases h
    exact .inl rfl
  · simp only [bind_eq_ok, pure_eq_ok, orRefuse_eq_ok] at h
    obtain ⟨edges, hins, rfl⟩ := h
    obtain ⟨hfree, rfl⟩ := insert?_eq_some.mp hins
    exact .inr ⟨_, hfree, rfl, rfl, rfl, rfl, rfl⟩

theorem materializeOrigins_invariant {seen : List (OriginKind × Text)} {refs : List BeliefOrigin}
    (h : materializeOrigins type seq target i seen refs p = .ok q) (hp : P p)
    (step : ∀ i origin p q, P p → insertOrigin type seq i origin target p = .ok q → P q) : P q := by
  induction refs generalizing i seen p with
  | nil =>
    cases h
    exact hp
  | cons ref refs ih =>
    simp only [materializeOrigins, bind_eq_ok] at h
    obtain ⟨_, -, _, -, _, -, _, -, _, -, r, hr, _, -, h⟩ := h
    exact ih h (step _ _ _ _ hp hr)

theorem materializeBeliefOriginsLocked_invariant {refs : Option (List BeliefOrigin)}
    (h : materializeBeliefOriginsLocked type seq target refs p = .ok q) (hp : P p)
    (step : ∀ i origin p q, P p → insertOrigin type seq i origin target p = .ok q → P q) : P q := by
  cases refs with
  | none =>
    cases h
    exact hp
  | some refs =>
    simp only [materializeBeliefOriginsLocked, bind_eq_ok, pure_eq_ok] at h
    obtain ⟨_, -, r, hr, _, -, rfl⟩ := h
    exact materializeOrigins_invariant hr hp step

/-! ### An event that is admitted and applied -/

structure Admitted (h : Host) (now : Bytes) (p : Projection) (type : EventType) (evt : Event) : Prop where
  ring2Text : validateRing2TextLocked p type evt.payload = .ok ()
  belief : validateBeliefAdmissionLocked h p type evt.payload = .ok ()
  retired : validateRetiredBeliefLocked p type evt.payload = .ok ()
  successor : validateSupersedeSuccessorLocked p type evt.payload = .ok ()
  liveOnly : validateLiveOnlyLocked h p type (maxSeq p.ledger + 1) evt.payload = .ok ()
  sourceId : validateSourceIDLocked p type evt.payload = .ok ()
  preflight : ∃ q, materializeLocked h (candidate now p evt.type evt.ring evt.payload) p = .ok q ∧
    (type = .edgeArchive → validateActiveBeliefGroundingLocked q evt.payload = .ok ())

theorem validateEvent_eq_ok {now : Bytes} (htype : EventType.ofBytes? evt.type = some type)
    (hv : validateEvent h now p evt.type evt.ring evt.payload = .ok ()) : Admitted h now p type evt := by
  simp only [validateEvent, htype, bind_eq_ok, passed_eq_ok, validateBefore] at hv
  obtain ⟨_, -, _, ⟨_, -, _, -, _, htext, _, hbelief, _, hretired, _, hsucc, _, -, _, hlive, hid⟩,
    q, hq, hg⟩ := hv
  refine ⟨htext, hbelief, hretired, hsucc, hlive, hid, q, hq, fun ht => ?_⟩
  rwa [if_pos ht] at hg

theorem accept_eq_ok {a : Arrival} (hq : accept h p a = .ok q) :
    validateEvent (h.under a.settings) a.now { p with live := a.live } a.event.type a.event.ring
      a.event.payload = .ok () ∧ materializeLocked h a.event { p with live := a.live } = .ok q := by
  simp only [accept, admitAndApply, bind_eq_ok, passed_eq_ok] at hq
  obtain ⟨_, hv, hq⟩ := hq
  exact ⟨hv, hq⟩

end AiiOs.Store
