import AiiOs.Store.Evidence

/-! internal/store: `ReplayAll`, the rebuild of the derived tables from the record. No
handler looks at an ephemeral table, so the rebuilt tables are those that were lived, but
for the numbers SQLite gives to the rows of two of them. -/

namespace AiiOs.Store
open Lib Lib.Json AiiOs.Ledger Table List

inductive ReplayError
  | refused (seq : Nat) (type : Bytes) (e : Refusal)
  | publish
  deriving DecidableEq, Repr

/-- What the commit checks of the references that were deferred, and of the rows of
ephemeral tables that refer to records. The references to `ledger(seq)` in the derived
tables hold as in the handlers. -/
def foreignKeysHold (p : Projection) : Prop :=
  (∀ c ∈ p.commitments.rows, p.relationships.Holds c.counterpartId) ∧
    (∀ b ∈ p.beliefs.rows, ∀ id ∈ b.supersededBy, p.beliefs.Holds id) ∧
    ∀ n ∈ p.live.ledgerRefs, p.ledger.Holds n

instance (p : Projection) : Decidable (foreignKeysHold p) := inferInstanceAs (Decidable (_ ∧ _ ∧ _))

def cleared (p : Projection) : Projection :=
  { Derived.empty with live := p.live, sequences := p.sequences, deferred := true }

def replayStep (h : Host) (p : Projection) (evt : Event) : Except ReplayError Projection :=
  (materializeLocked h evt p).mapError (.refused evt.seq evt.type)

def replayAll (h : Host) (events : List Event) (p : Projection) : Except ReplayError Projection := do
  let q ← events.foldlM (replayStep h) (cleared p)
  if foreignKeysHold q then return { q with deferred := false } else throw .publish

/-! ### What the handlers do not look at -/

/-- The parts of a projection that only their own handlers touch. -/
structure Surround where
  live : Live
  witnessReceipts : List WitnessReceipt
  trustEpochs : List TrustEpoch
  sequences : Sequences
  deferred : Bool

def Projection.within (p : Projection) (s : Surround) : Projection := { p with
    live := s.live
    witnessReceipts := s.witnessReceipts
    trustEpochs := s.trustEpochs
    sequences := s.sequences
    deferred := s.deferred }

def Projection.surround (p : Projection) : Surround :=
  ⟨p.live, p.witnessReceipts, p.trustEpochs, p.sequences, p.deferred⟩

def Ignores (f : Projection → Except Refusal Projection) : Prop :=
  ∀ p s, f (p.within s) = (f p).map (·.within s)

def Carries (f : Projection → Except Refusal Projection) : Prop :=
  ∀ p s q, (s.deferred = p.deferred ∨ s.deferred) → f p = .ok q → f (p.within s) = .ok (q.within s)

variable {f : Projection → Except Refusal Projection} {type : EventType} {evt : Event} {h : Host}

theorem Ignores.carries (h : Ignores f) : Carries f := by
  intro p s q _ hq
  rw [h, hq]
  rfl

section
variable (type : EventType) (h : Host) (evt : Event)

theorem insertOrigin_ignores (seq i : Nat) (origin target : Text) :
    Ignores (insertOrigin type seq i origin target) := by
  intro p s
  change (if linked p.edges origin target .derivedFrom then _ else _) = _
  rw [insertOrigin]
  split_ifs
  · rfl
  · simp only [map_bind]
    rfl

theorem materializeOrigins_ignores (seq : Nat) (target : Text) (i : Nat)
    (seen : List (OriginKind × Text)) (refs : List BeliefOrigin) :
    Ignores (materializeOrigins type seq target i seen refs) := by
  induction refs generalizing i seen with
  | nil =>
    intro p s
    rfl
  | cons ref refs ih =>
    intro p s
    have ih : ∀ i seen (p : Projection), materializeOrigins type seq target i seen refs (p.within s) = _ :=
      fun i seen p => ih i seen p s
    simp only [materializeOrigins, map_bind, insertOrigin_ignores type seq i ref.id target p s, bind_map, ih]
    rfl

theorem materializeBeliefOriginsLocked_ignores (seq : Nat) (target : Text)
    (refs : Option (List BeliefOrigin)) : Ignores (materializeBeliefOriginsLocked type seq target refs) := by
  intro p s
  cases refs with
  | none => rfl
  | some refs =>
    simp only [materializeBeliefOriginsLocked, map_bind,
      materializeOrigins_ignores type seq target 0 [] refs p s, bind_map]
    rfl

theorem consumeInputs_ignores (inputs : List Text) : Ignores (consumeInputs type inputs) := by
  induction inputs with
  | nil =>
    intro p s
    rfl
  | cons id inputs ih =>
    intro p s
    simp only [consumeInputs, map_bind, ← ih _ s]
    rfl

theorem stampConfirmed_ignores (confirmed : List ConfirmedCrossing) :
    Ignores (stampConfirmed type confirmed) := by
  induction confirmed with
  | nil =>
    intro p s
    rfl
  | cons c confirmed ih =>
    intro p s
    simp only [stampConfirmed, map_bind, ← ih _ s]
    rfl

theorem materializeFacilityRun_ignores : Ignores (materializeFacilityRun type evt) := by
  intro p s
  have hrun : ∀ outputs, runOutputsPrecedeLocked type evt.seq (p.within s) outputs =
      runOutputsPrecedeLocked type evt.seq p outputs := fun outputs => by
    induction outputs with
    | nil => rfl
    | cons n outputs ih =>
      rw [runOutputsPrecedeLocked, ih]
      rfl
  have hconsume : ∀ inputs, consumeInputs type inputs (p.within s) = _ := (consumeInputs_ignores type · p s)
  have hstamp : ∀ confirmed (p : Projection), stampConfirmed type confirmed (p.within s) = _ :=
    fun confirmed p => stampConfirmed_ignores type confirmed p s
  simp only [materializeFacilityRun, map_bind, hrun, hconsume, bind_map, hstamp]

theorem materializeBeliefUpsert_ignores : Ignores (materializeBeliefUpsert h evt) := by
  intro p s
  simp only [materializeBeliefUpsert, map_bind, ← materializeBeliefOriginsLocked_ignores _ _ _ _ _ s]
  rfl

theorem materializeWorkingStyle_ignores : Ignores (materializeWorkingStyle h evt) := by
  intro p s
  simp only [materializeWorkingStyle, map_bind, ← materializeBeliefOriginsLocked_ignores _ _ _ _ _ s]
  rfl

theorem materializeBeliefSupersede_carries : Carries (materializeBeliefSupersede evt) := by
  intro p s q hs h
  simp only [materializeBeliefSupersede, bind_eq_ok, pure_eq_ok, require_eq_ok] at h ⊢
  obtain ⟨w, hw, u, hold, v, hnew, rfl⟩ := h
  refine ⟨w, hw, u, hold, v, ?_, rfl⟩
  exact hs.elim (fun hs => hnew.imp_left hs.trans) .inl

theorem materializeCommitmentPromised_carries : Carries (materializeCommitmentPromised evt) := by
  intro p s q hs h
  simp only [materializeCommitmentPromised, bind_eq_ok, pure_eq_ok, require_eq_ok] at h ⊢
  obtain ⟨w, hw, u, hne, t, ht, v, hheld, rfl⟩ := h
  refine ⟨w, hw, u, hne, t, ht, v, ?_, rfl⟩
  exact hs.elim (fun hs => hheld.imp_left hs.trans) .inl

def writesAround : Bool :=
  type = .ring0Genesis || type = .systemWitnessed || type = .trustEpochAccepted

end

theorem handle_carries (h : Host) (evt : Event) (ht : writesAround type = false) :
    Carries (handle h type evt) := by
  cases type with
  | ring0Genesis => cases ht
  | systemWitnessed => cases ht
  | trustEpochAccepted => cases ht
  | beliefUpsert => exact (materializeBeliefUpsert_ignores h evt).carries
  | workingStyleUpsert => exact (materializeWorkingStyle_ignores h evt).carries
  | beliefSupersede => exact materializeBeliefSupersede_carries evt
  | commitmentPromised => exact materializeCommitmentPromised_carries evt
  | consolidationRun => exact (materializeFacilityRun_ignores .consolidationRun evt).carries
  | dreamRun => exact (materializeFacilityRun_ignores .dreamRun evt).carries
  | _ =>
    -- these read and write one table each, field by field
    refine Ignores.carries fun p s => ?_
    simp only [handle, materializeBeliefPromote, materializeBeliefArchive, materializeEdgeLocked,
      materializeEdgeArchive, materializePublicName, materializeExperience, materializeSelfModelSynthesis,
      materializeRelationshipLocked, materializeIntentionCreate, materializeIntentionStateChange,
      materializeCommitmentStateChange, map_bind]
    rfl

/-! ### The derived tables but for the row numbers -/

def WitnessReceipt.unnumbered (r : WitnessReceipt) : WitnessReceipt := { r with id := 0 }

def TrustEpoch.unnumbered (t : TrustEpoch) : TrustEpoch := { t with id := 0 }

/-- The derived tables, without the numbers that `AUTOINCREMENT` gives to rows. -/
def Projection.content (p : Projection) : Derived := { p.toDerived with
    witnessReceipts := p.witnessReceipts.map WitnessReceipt.unnumbered
    trustEpochs := p.trustEpochs.map TrustEpoch.unnumbered }

theorem eq_within_of_content {p p' : Projection} (h : p.content = p'.content) :
    p' = p.within p'.surround := by
  obtain ⟨⟨_, _, _, _, _, _, _, _, _, _, _⟩, _, _, _⟩ := p
  simp only [Projection.content, Derived.mk.injEq] at h
  obtain ⟨rfl, rfl, rfl, rfl, rfl, rfl, rfl, rfl, -, -, rfl⟩ := h
  rfl

structure Stays (p q : Projection) : Prop where
  deferred : q.deferred = p.deferred
  ledgerRefs : q.live.ledgerRefs = p.live.ledgerRefs

/-- What is accepted on one projection is accepted on any other with the same content
that checks no reference sooner, and the content stays the same. -/
def Simulates (f : Projection → Except Refusal Projection) : Prop :=
  ∀ p p' q, p.content = p'.content → (p'.deferred = p.deferred ∨ p'.deferred) → f p = .ok q →
    Stays p q ∧ ∃ q', f p' = .ok q' ∧ q.content = q'.content ∧ Stays p' q'

theorem Carries.simulates (h : Carries f) : Simulates f := by
  intro p p' q hc hd hq
  have hsame : q = q.within p.surround := Except.ok.inj (hq.symm.trans (h p p.surround q (.inl rfl) hq))
  have hq' := h p p'.surround q hd hq
  rw [← eq_within_of_content hc] at hq'
  refine ⟨⟨?_, ?_⟩, _, hq', ?_, ⟨rfl, rfl⟩⟩
  · rw [hsame]
    rfl
  · rw [hsame]
    rfl
  · rw [hsame]
    have hr := congrArg Derived.witnessReceipts hc
    have ht := congrArg Derived.trustEpochs hc
    simp only [Projection.content] at hr ht
    simp only [Projection.content, Projection.within, Projection.surround, hr, ht]

theorem Simulates.bind {g : Projection → Except Refusal Projection} (hf : Simulates f) (hg : Simulates g) :
    Simulates fun p => f p >>= g := by
  intro p p' q hc hd hq
  obtain ⟨r, hr, hq⟩ := bind_eq_ok.mp hq
  obtain ⟨hstays, r', hr', hc', hstays'⟩ := hf p p' r hc hd hr
  have hd' : r'.deferred = r.deferred ∨ r'.deferred := by rwa [hstays.deferred, hstays'.deferred]
  obtain ⟨hs, q', hq', hcq, hs'⟩ := hg r r' q hc' hd' hq
  exact ⟨⟨hs.deferred.trans hstays.deferred, hs.ledgerRefs.trans hstays.ledgerRefs⟩, q',
    bind_eq_ok.mpr ⟨r', hr', hq'⟩, hcq,
    ⟨hs'.deferred.trans hstays'.deferred, hs'.ledgerRefs.trans hstays'.ledgerRefs⟩⟩

theorem materializeSystemWitnessed_simulates (evt : Event) : Simulates (materializeSystemWitnessed evt) := by
  intro p p' q hc _ hq
  obtain ⟨s, rfl⟩ : ∃ s, p' = p.within s := ⟨_, eq_within_of_content hc⟩
  simp only [materializeSystemWitnessed, bind_eq_ok] at hq ⊢
  obtain ⟨⟨receipt, before⟩, hw, hq⟩ := hq
  cases receipt with
  | none =>
    simp only at hq
    split_ifs at hq with hb
    cases hq
    refine ⟨⟨rfl, rfl⟩, _, ⟨_, hw, ?_⟩, hc, ⟨rfl, rfl⟩⟩
    simp only [hb]
    rfl
  | some r =>
    obtain ⟨u, hu, hq⟩ := bind_eq_ok.mp hq
    cases hq
    refine ⟨⟨rfl, rfl⟩, _, ⟨_, hw, bind_eq_ok.mpr ⟨u, hu, rfl⟩⟩, ?_, ⟨rfl, rfl⟩⟩
    have hr := congrArg Derived.witnessReceipts hc
    have ht := congrArg Derived.trustEpochs hc
    simp only [Projection.content] at hr ht
    simp only [Projection.content, map_append, hr, ht]
    rfl

theorem materializeTrustEpochAccepted_simulates (evt : Event) :
    Simulates (materializeTrustEpochAccepted evt) := by
  intro p p' q hc _ hq
  obtain ⟨s, rfl⟩ : ∃ s, p' = p.within s := ⟨_, eq_within_of_content hc⟩
  simp only [materializeTrustEpochAccepted, bind_eq_ok, pure_eq_ok] at hq ⊢
  obtain ⟨w, hw, u, hu, rfl⟩ := hq
  refine ⟨⟨rfl, rfl⟩, _, ⟨w, hw, u, hu, rfl⟩, ?_, ⟨rfl, rfl⟩⟩
  have hr := congrArg Derived.witnessReceipts hc
  have ht := congrArg Derived.trustEpochs hc
  simp only [Projection.content] at hr ht
  simp only [Projection.content, map_append, hr, ht]
  rfl

theorem handle_simulates (h : Host) (type : EventType) (evt : Event) : Simulates (handle h type evt) := by
  by_cases ht : writesAround type = false
  · exact (handle_carries h evt ht).simulates
  cases type with
  | ring0Genesis =>
    intro p p' q hc _ hq
    cases hq
    exact ⟨⟨rfl, rfl⟩, _, rfl, hc, ⟨rfl, rfl⟩⟩
  | systemWitnessed => exact materializeSystemWitnessed_simulates evt
  | trustEpochAccepted => exact materializeTrustEpochAccepted_simulates evt
  | _ => exact absurd rfl ht

theorem materializeLocked_simulates (h : Host) (evt : Event) : Simulates (materializeLocked h evt) := by
  have hmirror : Ignores (mirrorInsert h evt) := by
    intro p s
    simp only [mirrorInsert, map_bind]
    rfl
  refine hmirror.carries.simulates.bind fun p p' q hc hd hq => ?_
  obtain ⟨type, htype, hq⟩ := bind_eq_ok.mp hq
  obtain ⟨hs, q', hq', hrest⟩ := handle_simulates h type evt p p' q hc hd hq
  exact ⟨hs, q', bind_eq_ok.mpr ⟨type, htype, hq'⟩, hrest⟩

/-! ### References -/

/-- Every commitment has its counterpart, every superseded belief its successor. -/
structure Refers (p : Projection) : Prop where
  counterparts : ∀ c ∈ p.commitments.rows, p.relationships.Holds c.counterpartId
  successors : ∀ b ∈ p.beliefs.rows, ∀ id ∈ b.supersededBy, p.beliefs.Holds id

/-- No reference is new and no row that one may point to goes. -/
structure Keeps (p q : Projection) : Prop where
  relationship_ids : ∀ id, p.relationships.Holds id → q.relationships.Holds id
  commitments : ∀ c' ∈ q.commitments.rows, ∃ c ∈ p.commitments.rows, c'.counterpartId = c.counterpartId
  belief_ids : ∀ id, p.beliefs.Holds id → q.beliefs.Holds id
  beliefs : ∀ b' ∈ q.beliefs.rows, ∀ id ∈ b'.supersededBy, ∃ b ∈ p.beliefs.rows, id ∈ b.supersededBy

namespace Keeps
variable {p q r : Projection}

theorem of_eq (hr : q.relationships = p.relationships) (hc : q.commitments = p.commitments)
    (hb : q.beliefs = p.beliefs) : Keeps p q where
  relationship_ids _ h := hr ▸ h
  commitments c h := ⟨c, hc ▸ h, rfl⟩
  belief_ids _ h := hb ▸ h
  beliefs b h _ hid := ⟨b, hb ▸ h, hid⟩

theorem trans (h : Keeps p q) (h' : Keeps q r) : Keeps p r where
  relationship_ids id hid := h'.relationship_ids id (h.relationship_ids id hid)
  commitments c'' hc'' := by
    obtain ⟨c', hc', he'⟩ := h'.commitments c'' hc''
    obtain ⟨c, hc, he⟩ := h.commitments c' hc'
    exact ⟨c, hc, he'.trans he⟩
  belief_ids id hid := h'.belief_ids id (h.belief_ids id hid)
  beliefs b'' hb'' id hid := by
    obtain ⟨b', hb', hid'⟩ := h'.beliefs b'' hb'' id hid
    exact h.beliefs b' hb' id hid'

theorem refers (h : Keeps p q) (hp : Refers p) : Refers q where
  counterparts c' hc' := by
    obtain ⟨c, hc, he⟩ := h.commitments c' hc'
    exact he ▸ h.relationship_ids _ (hp.counterparts c hc)
  successors b' hb' id hid := by
    obtain ⟨b, hb, hid⟩ := h.beliefs b' hb' id hid
    exact h.belief_ids id (hp.successors b hb id hid)

end Keeps

theorem keeps_update (p : Projection) (c : Belief → Bool) (f : Belief → Belief)
    (hid : ∀ b, (f b).id = b.id) (hs : ∀ b, (f b).supersededBy = b.supersededBy)
    (edges : Table Edge.id) : Keeps p { p with beliefs := p.beliefs.update c f hid, edges := edges } where
  relationship_ids _ h := h
  commitments c h := ⟨c, h, rfl⟩
  belief_ids _ h := (holds_update hid).mpr h
  beliefs b' hb' id hsup := by
    obtain ⟨b, hb, rfl⟩ := mem_map.mp hb'
    refine ⟨b, hb, ?_⟩
    split_ifs at hsup
    · rwa [hs] at hsup
    · exact hsup

variable {p q : Projection} {arrivals : List Arrival}

theorem materializeFacilityRun_keeps (h : materializeFacilityRun type evt p = .ok q) : Keeps p q := by
  refine materializeFacilityRun_invariant (fun r id hr => hr.trans ?_) (fun r c hr => hr.trans ?_) h
    (.of_eq rfl rfl rfl)
  · exact .of_eq rfl rfl rfl
  · refine keeps_update r _ _ _ ?_ r.edges
    exact fun _ => rfl

theorem upsertBelief_keeps (p : Projection) {b : Belief} (hb : Fresh b) :
    Keeps p { p with beliefs := upsertBelief p.beliefs b } := by
  refine ⟨fun _ h => h, fun c h => ⟨c, h, rfl⟩, fun _ h => (holds_upsert _).mpr (.inl h), ?_⟩
  intro b' hb' id hid
  simp only [upsertBelief, Table.upsert] at hb'
  split_ifs at hb' with hheld
  · obtain ⟨o, ho, rfl⟩ := mem_map.mp hb'
    refine ⟨o, ho, ?_⟩
    split_ifs at hid <;> exact hid
  · rcases (mem_push hheld).mp hb' with hb' | rfl
    · exact ⟨b', hb', hid⟩
    · -- a new belief is active: it has no successor
      have hact := hb.active
      rw [Option.mem_def] at hid
      simp [Belief.active, hid] at hact

theorem handle_belief_keeps (htype : EventType.ofBytes? evt.type = some type)
    (ht : isBeliefText type) (hq : handle h type evt p = .ok q) : Keeps p q := by
  obtain ⟨b, refs, hb, -, -, hq⟩ := handle_belief htype ht hq
  refine materializeBeliefOriginsLocked_invariant hq (upsertBelief_keeps p hb) ?_
  intro i origin r r' hr h
  rcases insertOrigin_cases h with rfl | ⟨e, hfree, -, -, -, -, rfl⟩
  · exact hr
  · refine hr.trans (keeps_update r _ _ _ ?_ _)
    exact fun _ => rfl

theorem materializeRelationshipLocked_keeps (h : materializeRelationshipLocked evt p = .ok q) :
    Keeps p q := by
  simp only [materializeRelationshipLocked, bind_eq_ok, pure_eq_ok] at h
  obtain ⟨w, -, _, -, row, -, t, ht, _, -, rfl⟩ := h
  refine ⟨fun id hid => ?_, fun c hc => ⟨c, hc, rfl⟩, fun _ h => h, fun b hb id hid => ⟨b, hb, hid⟩⟩
  have hup : (upsertRelationship p.relationships row).Holds id := (holds_upsert _).mpr (.inl hid)
  rw [applySuccession] at ht
  split_ifs at ht
  · cases ht
    exact hup
  · cases ht
    simpa [supersedeRelationship] using hup

theorem materializeCommitmentStateChange_keeps
    (h : materializeCommitmentStateChange evt p = .ok q) : Keeps p q := by
  simp only [materializeCommitmentStateChange, bind_eq_ok, pure_eq_ok] at h
  obtain ⟨w, -, _, -, _, -, rfl⟩ := h
  refine ⟨fun _ h => h, fun c' hc' => ?_, fun _ h => h, fun b hb id hid => ⟨b, hb, hid⟩⟩
  obtain ⟨c, hc, rfl⟩ := mem_map.mp hc'
  exact ⟨c, hc, by split_ifs <;> rfl⟩

theorem materializeEdgeLocked_keeps (hq : materializeEdgeLocked h evt p = .ok q) : Keeps p q := by
  obtain ⟨e, hfree, -, rfl⟩ := materializeEdgeLocked_eq_ok hq
  by_cases he : e.edgeType.evidence
  · simp only [he, if_true]
    refine keeps_update p _ _ _ ?_ _
    exact fun _ => rfl
  · simp only [he]
    exact .of_eq rfl rfl rfl

theorem materializeEdgeArchive_keeps (h : materializeEdgeArchive evt p = .ok q) : Keeps p q := by
  obtain ⟨w, e, -, -, rfl⟩ := materializeEdgeArchive_eq_ok h
  by_cases he : e.edgeType.evidence
  · simp only [he, if_true]
    refine keeps_update p _ _ _ ?_ _
    exact fun _ => rfl
  · simp only [he]
    exact .of_eq rfl rfl rfl

theorem materializeCommitmentPromised_refers (hp : Refers p) (hd : p.deferred = false)
    (h : materializeCommitmentPromised evt p = .ok q) : Refers q := by
  simp only [materializeCommitmentPromised, bind_eq_ok, pure_eq_ok, orRefuse_eq_ok, require_eq_ok, hd,
    Bool.false_eq_true, false_or] at h
  obtain ⟨w, -, _, -, t, ht, _, hheld, rfl⟩ := h
  obtain ⟨hfree, rfl⟩ := insert?_eq_some.mp ht
  refine ⟨fun c hc => ?_, hp.successors⟩
  rcases (mem_push hfree).mp hc with hc | rfl
  · exact hp.counterparts c hc
  · exact hheld

theorem materializeBeliefSupersede_refers (hp : Refers p) (hd : p.deferred = false)
    (h : materializeBeliefSupersede evt p = .ok q) : Refers q := by
  simp only [materializeBeliefSupersede, bind_eq_ok, pure_eq_ok, require_eq_ok, hd,
    Bool.false_eq_true, false_or] at h
  obtain ⟨w, -, _, -, _, hnew, rfl⟩ := h
  refine ⟨hp.counterparts, fun b' hb' id hid => ?_⟩
  rw [holds_update]
  obtain ⟨b, hb, rfl⟩ := mem_map.mp hb'
  split_ifs at hid
  · exact Option.mem_some_iff.mp hid ▸ hnew
  · exact hp.successors b hb id hid

theorem handle_refers (htype : EventType.ofBytes? evt.type = some type) (hp : Refers p)
    (hd : p.deferred = false) (hq : handle h type evt p = .ok q) : Refers q := by
  by_cases ht : isBeliefText type
  · exact (handle_belief_keeps htype ht hq).refers hp
  by_cases haside : isAside type
  · have haside := handle_aside hq haside
    exact (Keeps.of_eq haside.relationships haside.commitments haside.beliefs).refers hp
  cases type with
  | commitmentPromised => exact materializeCommitmentPromised_refers hp hd hq
  | beliefSupersede => exact materializeBeliefSupersede_refers hp hd hq
  | relationshipUpsert => exact (materializeRelationshipLocked_keeps hq).refers hp
  | commitmentStateChange => exact (materializeCommitmentStateChange_keeps hq).refers hp
  | edgeCreate => exact (materializeEdgeLocked_keeps hq).refers hp
  | edgeArchive => exact (materializeEdgeArchive_keeps hq).refers hp
  | consolidationRun => exact (materializeFacilityRun_keeps hq).refers hp
  | dreamRun => exact (materializeFacilityRun_keeps hq).refers hp
  | beliefPromote =>
    simp only [handle, materializeBeliefPromote, bind_eq_ok, pure_eq_ok] at hq
    obtain ⟨w, -, _, -, _, -, rfl⟩ := hq
    refine (keeps_update p _ _ _ ?_ p.edges).refers hp
    exact fun _ => rfl
  | beliefArchive =>
    simp only [handle, materializeBeliefArchive, bind_eq_ok, pure_eq_ok] at hq
    obtain ⟨w, -, _, -, rfl⟩ := hq
    refine (keeps_update p _ _ _ ?_ p.edges).refers hp
    exact fun _ => rfl
  | experienceCreate =>
    obtain ⟨w, x, -, -, rfl⟩ := materializeExperience_eq_ok hq
    exact ⟨hp.counterparts, hp.successors⟩
  | _ => first | exact absurd rfl haside | exact absurd rfl ht

/-! ### Runs and their replay -/

theorem accept_refers {a : Arrival} (hp : Refers p) (hd : p.deferred = false)
    (hq : accept h p a = .ok q) : Refers q ∧ q.deferred = false := by
  have hp : Refers { p with live := a.live } := ⟨hp.counterparts, hp.successors⟩
  have hq := (accept_eq_ok hq).2
  have hstays := (materializeLocked_simulates h a.event _ _ q rfl (.inl rfl) hq).1
  obtain ⟨type, ledger, htype, hq⟩ := materializeLocked_eq_ok hq
  refine ⟨handle_refers htype ?_ ?_ hq, hstays.deferred.trans hd⟩
  · exact ⟨hp.counterparts, hp.successors⟩
  · exact hd

theorem accepted_refers (hp : accepted h arrivals = .ok p) : Refers p ∧ p.deferred = false := by
  refine foldlM_ok_invariant (P := fun p => Refers p ∧ p.deferred = false) hp ⟨⟨nofun, nofun⟩, rfl⟩ ?_
  rintro p a q - ⟨hp, hd⟩ hq
  exact accept_refers hp hd hq

theorem replay_follows {s : Projection} (hp : accepted h arrivals = .ok p) : ∃ q,
      (arrivals.map Arrival.event).foldlM (replayStep h) (cleared s) = .ok q ∧ p.content = q.content ∧
        q.live.ledgerRefs = s.live.ledgerRefs := by
  rw [foldlM_map]
  have hstart : Projection.empty.content = (cleared s).content ∧ (cleared s).deferred ∧
      (cleared s).live.ledgerRefs = s.live.ledgerRefs := ⟨rfl, rfl, rfl⟩
  have hsim := foldlM_ok_simulation
    (R := fun p q => p.content = q.content ∧ q.deferred ∧ q.live.ledgerRefs = s.live.ledgerRefs)
    (g := fun q (a : Arrival) => replayStep h q a.event) hp hstart
  obtain ⟨q, hq, hc, -, hrefs⟩ := hsim fun p q a p' hR hp' => by
    obtain ⟨hc, hd, hrefs⟩ := hR
    obtain ⟨-, q', hq', hc', hs⟩ :=
      materializeLocked_simulates h a.event { p with live := a.live } q p' hc (.inr hd) (accept_eq_ok hp').2
    exact ⟨q', by rw [replayStep, hq']; rfl, hc', hs.deferred.trans hd, hs.ledgerRefs.trans hrefs⟩
  exact ⟨q, hq, hc, hrefs⟩

/-- An event is accepted on both of two projections or on neither when their derived
tables agree but for the row numbers, whatever the ephemeral tables hold, and leaves
tables that agree as well. So a rebuild from a record that was lived gives the content of
the tables that were lived. -/
theorem replay_reproduces_content (h : Host) :
    (∀ evt p p', p.content = p'.content → p.deferred = p'.deferred →
      ((∃ q, materializeLocked h evt p = .ok q) ↔ ∃ q', materializeLocked h evt p' = .ok q') ∧
        ∀ q q', materializeLocked h evt p = .ok q → materializeLocked h evt p' = .ok q' →
          q.content = q'.content) ∧
    ∀ arrivals p live, accepted h arrivals = .ok p → (∀ n ∈ live.ledgerRefs, p.ledger.Holds n) →
      ∃ q, replayAll h (arrivals.map Arrival.event) { p with live := live } = .ok q ∧
        q.content = p.content := by
  refine ⟨fun evt p p' hc hd => ⟨⟨?_, ?_⟩, ?_⟩, ?_⟩
  · rintro ⟨q, hq⟩
    obtain ⟨-, q', hq', -⟩ := materializeLocked_simulates h evt p p' q hc (.inl hd.symm) hq
    exact ⟨q', hq'⟩
  · rintro ⟨q', hq'⟩
    obtain ⟨-, q, hq, -⟩ := materializeLocked_simulates h evt p' p q' hc.symm (.inl hd) hq'
    exact ⟨q, hq⟩
  · intro q q' hq hq'
    obtain ⟨-, r, hr, hcr, -⟩ := materializeLocked_simulates h evt p p' q hc (.inl hd.symm) hq
    rw [hcr, Except.ok.inj (hr.symm.trans hq')]
  · intro arrivals p live hp hrefs
    obtain ⟨q, hq, hc, hlive⟩ := replay_follows (s := { p with live := live }) hp
    obtain ⟨hrefers, -⟩ := accepted_refers hp
    have hkeys : foreignKeysHold q := by
      have hqp := eq_within_of_content hc
      refine ⟨?_, ?_, ?_⟩
      · rw [hqp]
        exact hrefers.counterparts
      · rw [hqp]
        exact hrefers.successors
      · rw [hlive, hqp]
        exact hrefs
    refine ⟨{ q with deferred := false }, ?_, hc.symm⟩
    rw [replayAll, hq]
    simp only [bind, Except.bind, hkeys]
    rfl

def oneReceipt : Arrival :=
  ⟨plainHost.toSettings, Projection.empty.live, [], ⟨1, [], [], bytesOf "system.witnessed", 0, [],
    bytesOf "\x7b\"receipt\":\x7b\"ledger_ordinal\":1,\"ledger_hash\":\"h\"\x7d\x7d", [], false,
    false, .none⟩⟩

/-- The rebuilt receipt has the next number, not the one it had. -/
theorem oneReceipt_renumbered : ∃ p q, accepted plainHost [oneReceipt] = .ok p ∧
    replayAll plainHost [oneReceipt.event] p = .ok q ∧ q.witnessReceipts ≠ p.witnessReceipts := by
  obtain ⟨p, hp, hr⟩ : ∃ p, accepted plainHost [oneReceipt] = .ok p ∧
      (replayAll plainHost [oneReceipt.event] p).toOption.any fun q => q.witnessReceipts ≠
        p.witnessReceipts :=
    exists_ok (by decide +kernel)
  obtain ⟨q, hq, hne⟩ := exists_ok hr
  exact ⟨p, q, hp, hq, hne⟩

end AiiOs.Store
