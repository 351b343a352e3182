import AiiOs.Store.Evidence

/-! Active beliefs and what they rest on. A belief is created with a held origin and no
edge is archived that leaves it without one; a source id names one source unless it is
empty, which admission does not look at. -/

namespace AiiOs.Store
open Lib Lib.Json AiiOs.Ledger List Option Table

/-! ### Payloads read twice -/

variable {payload : Bytes}

theorem unmarshal_view {σ τ : Type} {fields : FieldList σ} {fewer : FieldList τ} {view : σ → τ}
    (h : Views fields fewer view) {zero s : σ}
    (hs : unmarshal (structType false fields) zero payload = some s) :
    unmarshal (structType false fewer) (view zero) payload = some (view s) := by
  obtain ⟨x, hx, hs⟩ := bind_eq_some_iff.mp hs
  rw [unmarshal, hx]
  exact h.unmarshal hs

structure WrittenPayload where
  id : Text
  content : Text
  originRefs : List BeliefOrigin

def WrittenPayload.fields : FieldList WrittenPayload :=
  [("id", field storeString (·.id) fun p v => { p with id := v }),
    ("content", field storeString (·.content) fun p v => { p with content := v }),
    ("origin_refs", field storeOrigins (·.originRefs) fun p v => { p with originRefs := v })]

def readWritten : Bytes → Option WrittenPayload :=
  unmarshal (structType false WrittenPayload.fields) ⟨[], [], []⟩

section
variable (float64 : Text → Option Rat)

theorem beliefUpsert_views : Views (BeliefUpsertPayload.fields float64) WrittenPayload.fields
    fun w => ⟨w.id, w.content, w.originRefs.getD []⟩ where
  names := of_decide_eq_true rfl
  shared := by
    simp [BeliefUpsertPayload.fields, WrittenPayload.fields, field]
    exact fun s m _ h => storePointer_getD (fun _ => rfl) h
  other := by simp [BeliefUpsertPayload.fields, WrittenPayload.fields, field]
  folded := by
    simp only [BeliefUpsertPayload.fields, forall_mem_cons]
    decide

theorem workingStyle_views : Views (WorkingStylePayload.fields float64) WrittenPayload.fields
    fun w => ⟨w.id, w.content, w.originRefs.getD []⟩ where
  names := of_decide_eq_true rfl
  shared := by
    simp [WorkingStylePayload.fields, WrittenPayload.fields, field]
    exact fun s m _ h => storePointer_getD (fun _ => rfl) h
  other := by simp [WorkingStylePayload.fields, WrittenPayload.fields, field]
  folded := by
    simp only [WorkingStylePayload.fields, forall_mem_cons]
    decide

end

theorem admission_views : Views AdmissionPayload.fields WrittenPayload.fields
    fun w => ⟨w.id, w.content, w.originRefs⟩ where
  names := by decide
  shared := by simp [AdmissionPayload.fields, WrittenPayload.fields, field]
  other := by simp [AdmissionPayload.fields, WrittenPayload.fields, field, -Bool.exists_bool,
    -Bool.forall_bool]
  folded := by decide

theorem written_views : Views WrittenPayload.fields IdPayload.fields fun w => ⟨w.id⟩ where
  names := by decide
  shared := by simp [WrittenPayload.fields, IdPayload.fields, field]
  other := by simp [WrittenPayload.fields, IdPayload.fields, field]
  folded := by decide

theorem experience_views : Views ExperiencePayload.fields IdPayload.fields fun w => ⟨w.id⟩ where
  names := by decide
  shared := by simp [ExperiencePayload.fields, IdPayload.fields, field]
  other := by simp [ExperiencePayload.fields, IdPayload.fields, field, -Bool.exists_bool, -Bool.forall_bool]
  folded := by decide

variable {evt : Event} {refs : Option (List BeliefOrigin)} {id : Text} {h : Host}
  {type : EventType} {e : Edge}

section
variable (hw : writtenBelief h evt = some (id, refs))
include hw

theorem readWritten_of_writtenBelief :
    ∃ content, readWritten evt.payload = some ⟨id, content, refs.getD []⟩ := by
  rw [writtenBelief] at hw
  split at hw
  · obtain ⟨w, hr, hw⟩ := map_eq_some_iff.mp hw
    cases hw
    exact ⟨_, unmarshal_view (beliefUpsert_views _) hr⟩
  · obtain ⟨w, hr, hw⟩ := map_eq_some_iff.mp hw
    cases hw
    exact ⟨_, unmarshal_view (workingStyle_views _) hr⟩
  · cases hw

theorem readId_of_writtenBelief : readId evt.payload = some ⟨id⟩ := by
  obtain ⟨content, hr⟩ := readWritten_of_writtenBelief hw
  exact unmarshal_view written_views hr

theorem admission_origins {a : AdmissionPayload}
    (ha : readAdmission evt.payload = some a) : a.originRefs = refs.getD [] := by
  obtain ⟨content, hr⟩ := readWritten_of_writtenBelief hw
  have ha : readWritten evt.payload = some ⟨a.id, a.content, a.originRefs⟩ :=
    unmarshal_view admission_views ha
  exact congrArg WrittenPayload.originRefs (some_inj.mp (ha.symm.trans hr))

end

/-! ### What admission has checked -/

variable {p : Projection}

theorem admitted_origins {h' : Host} (ht : isBeliefText type)
    (hv : validateBeliefAdmissionLocked h' p type evt.payload = .ok ())
    (hw : writtenBelief h evt = some (id, refs)) : ∃ r rs, refs = some (r :: rs) := by
  simp only [validateBeliefAdmissionLocked, ht, Bool.not_true, Bool.false_eq_true, if_false, bind_eq_ok,
    orDeny_eq_ok, allow_eq_ok] at hv
  obtain ⟨a, ha, _, -, _, -, _, -, _, horigins, -⟩ := hv
  rw [admission_origins hw ha] at horigins
  cases refs with
  | none => exact absurd rfl horigins
  | some refs =>
    cases refs with
    | nil => exact absurd rfl horigins
    | cons r rs => exact ⟨r, rs, rfl⟩

theorem admitted_sourceId (hv : validateSourceIDLocked p type payload = .ok ())
    (hid : readId payload = some ⟨id⟩) (hne : id ≠ []) : ¬ heldElsewhere type p id := by
  simpa only [validateSourceIDLocked, hid, if_neg hne, allow_eq_ok] using hv

/-! ### Sources -/

def Source (p : Projection) (id : Text) : Prop := p.experiences.Holds id ∨ p.beliefs.Holds id

def HeldByBoth (p : Projection) (id : Text) : Prop := p.experiences.Holds id ∧ p.beliefs.Holds id

structure Rests (p : Projection) (e : Edge) (id : Text) : Prop where
  mem : e ∈ p.edges.rows
  evidence : e.evidenceFor id
  ne : e.fromId ≠ id
  source : Source p e.fromId

theorem grounds_iff : e ∈ p.edges.rows ∧ e.grounds p id ↔ Rests p e id ∧ ¬ HeldByBoth p e.fromId := by
  simp only [Edge.grounds, Bool.and_eq_true, Bool.or_eq_true, decide_eq_true_eq, Bool.not_eq_true',
    decide_eq_false_iff_not]
  constructor
  · rintro ⟨hmem, ⟨hev, hne⟩, ⟨hx, hb⟩ | ⟨hb, hx⟩⟩
    · exact ⟨⟨hmem, hev, hne, .inl hx⟩, fun h => hb h.2⟩
    · exact ⟨⟨hmem, hev, hne, .inr hb⟩, fun h => hx h.1⟩
  · rintro ⟨⟨hmem, hev, hne, hx | hb⟩, hboth⟩
    · exact ⟨hmem, ⟨hev, hne⟩, .inl ⟨hx, fun hb => hboth ⟨hx, hb⟩⟩⟩
    · exact ⟨hmem, ⟨hev, hne⟩, .inr ⟨hb, fun hx => hboth ⟨hx, hb⟩⟩⟩

def Rested (p : Projection) : Prop := ∀ b ∈ p.beliefs.rows, b.active → ∃ e, Rests p e b.id

def Distinct (p : Projection) : Prop := ∀ id, HeldByBoth p id → id = []

/-- Edges may be added, and beliefs retired; no id is taken or freed. -/
structure Adds (p q : Projection) : Prop where
  edges : ∀ e ∈ p.edges.rows, e ∈ q.edges.rows
  beliefs : ∀ b' ∈ q.beliefs.rows, ∃ b ∈ p.beliefs.rows, b'.id = b.id ∧ (b'.active → b.active)
  belief_ids : ∀ id, q.beliefs.Holds id ↔ p.beliefs.Holds id
  experience_ids : ∀ id, q.experiences.Holds id ↔ p.experiences.Holds id

theorem Rests.grow {q : Projection} (h : Rests p e id) (hedges : ∀ e ∈ p.edges.rows, e ∈ q.edges.rows)
    (hsource : ∀ id, Source p id → Source q id) :
    Rests q e id := ⟨hedges e h.mem, h.evidence, h.ne, hsource _ h.source⟩

namespace Adds
variable {p q r : Projection}

theorem refl (p : Projection) : Adds p p :=
  ⟨fun _ h => h, fun b hb => ⟨b, hb, rfl, fun h => h⟩, fun _ => .rfl, fun _ => .rfl⟩

theorem trans (h : Adds p q) (h' : Adds q r) : Adds p r where
  edges e he := h'.edges e (h.edges e he)
  beliefs b'' hb'' := by
    obtain ⟨b', hb', hid', hact'⟩ := h'.beliefs b'' hb''
    obtain ⟨b, hb, hid, hact⟩ := h.beliefs b' hb'
    exact ⟨b, hb, hid'.trans hid, fun ha => hact (hact' ha)⟩
  belief_ids id := (h'.belief_ids id).trans (h.belief_ids id)
  experience_ids id := (h'.experience_ids id).trans (h.experience_ids id)

theorem source (h : Adds p q) (id : Text) (hs : Source p id) : Source q id := by
  rwa [Source, h.experience_ids, h.belief_ids]

theorem rests (h : Adds p q) {id : Text} (hr : Rests p e id) : Rests q e id := hr.grow h.edges h.source

theorem rested (h : Adds p q) (hp : Rested p) : Rested q := by
  intro b' hb' ha
  obtain ⟨b, hb, hid, hact⟩ := h.beliefs b' hb'
  obtain ⟨e, he⟩ := hp b hb (hact ha)
  exact ⟨e, hid ▸ h.rests he⟩

theorem heldByBoth (h : Adds p q) {id : Text} (hq : HeldByBoth q id) : HeldByBoth p id :=
  ⟨(h.experience_ids id).mp hq.1, (h.belief_ids id).mp hq.2⟩

end Adds

variable {p q : Projection} {i : Nat} {target : Text} {ref : BeliefOrigin} {b : Belief}
  {edges : Table Edge.id}

theorem Quiet.adds (h : Quiet p q) : Adds p q where
  edges _ he := h.edges ▸ he
  beliefs b' hb' := by
    obtain ⟨b, hb, hid, -, hact⟩ := h.beliefs b' hb'
    exact ⟨b, hb, hid, hact⟩
  belief_ids := h.belief_ids
  experience_ids := h.experience_ids

theorem adds_push (hfree : ¬ p.edges.Holds e.id) : Adds p { p with edges := p.edges.push e hfree } :=
  ⟨fun _ ha => (mem_push hfree).mpr (.inl ha), fun b hb => ⟨b, hb, rfl, fun h => h⟩, fun _ => .rfl,
    fun _ => .rfl⟩

theorem adds_count (p : Projection) (id : Text) (seq : Option Nat) :
    Adds p { p with beliefs := countEvidence p.beliefs id seq } where
  edges _ he := he
  beliefs b' hb' := by
    obtain ⟨b, hb, rfl⟩ := List.mem_map.mp hb'
    refine ⟨b, hb, ?_⟩
    split_ifs
    · exact ⟨rfl, fun h => h⟩
    · exact ⟨rfl, fun h => h⟩
  belief_ids _ := by simp [countEvidence]
  experience_ids _ := Iff.rfl

/-! ### Handlers -/

variable {seq : Nat}

theorem insertOrigin_adds {origin : Text} (h : insertOrigin type seq i origin target p = .ok q) :
    Adds p q := by
  rcases insertOrigin_cases h with rfl | ⟨e, hfree, -, -, -, -, rfl⟩
  · exact .refl _
  · exact (adds_push hfree).trans (adds_count _ target none)

variable {refs : List BeliefOrigin}

theorem materializeOrigins_rests {seen : List (OriginKind × Text)}
    (h : materializeOrigins type seq target i seen (ref :: refs) p = .ok q) : ∃ e, Rests q e target := by
  simp only [materializeOrigins, bind_eq_ok, require_eq_ok] at h
  obtain ⟨_, ⟨-, hne⟩, kind, -, _, -, _, hheld, _, -, r, hr, _, ⟨e, he, hfrom, hto, htype, hact⟩, h⟩ := h
  have hsource : Source p ref.id := by
    cases kind with
    | experience => exact .inl hheld
    | belief => exact .inr hheld
  have hrests : Rests r e target := by
    refine ⟨he, ?_, hfrom ▸ hne, hfrom ▸ (insertOrigin_adds hr).source _ hsource⟩
    simp [Edge.evidenceFor, hto, hact, htype, EdgeType.evidence]
  have hadds : Adds r q := materializeOrigins_invariant h (.refl r) fun _ _ _ _ ha ho =>
    ha.trans (insertOrigin_adds ho)
  exact ⟨e, hadds.rests hrests⟩

theorem written_rested (hp : Rested p)
    (h : materializeBeliefOriginsLocked type seq b.id (some (ref :: refs))
      { p with beliefs := upsertBelief p.beliefs b } = .ok q) :
    Rested q := by
  simp only [materializeBeliefOriginsLocked, bind_eq_ok, pure_eq_ok] at h
  obtain ⟨_, -, _, h, _, -, rfl⟩ := h
  have hadds := materializeOrigins_invariant h (.refl _) fun _ _ _ _ ha ho =>
    Adds.trans ha (insertOrigin_adds ho)
  intro b' hb' ha
  obtain ⟨a, hmem, hid, hact⟩ := hadds.beliefs b' hb'
  by_cases hb : a.id = b.id
  · rw [hid, hb]
    exact materializeOrigins_rests h
  · have hold : a ∈ p.beliefs.rows := by
      simp only [upsertBelief, Table.upsert] at hmem
      split_ifs at hmem with hheld
      · obtain ⟨o, ho, rfl⟩ := List.mem_map.mp hmem
        split_ifs at hb ⊢ with ho'
        · exact absurd (of_decide_eq_true ho') hb
        · exact ho
      · rcases (mem_push hheld).mp hmem with hm | rfl
        · exact hm
        · exact absurd rfl hb
    obtain ⟨e, he⟩ := hp a hold (hact ha)
    refine ⟨e, hid ▸ hadds.rests (he.grow (fun _ h => h) fun id hs => ?_)⟩
    exact hs.imp (fun h => h) fun h => (holds_upsert _).mpr (.inl h)

theorem written_heldByBoth
    (h : materializeBeliefOriginsLocked type seq b.id refs
      { p with beliefs := upsertBelief p.beliefs b } = .ok q)
    (hq : HeldByBoth q id) :
    HeldByBoth p id ∨ id = b.id ∧ p.experiences.Holds id := by
  have hadds := materializeBeliefOriginsLocked_invariant h (.refl _)
    fun _ _ _ _ ha ho => Adds.trans ha (insertOrigin_adds ho)
  obtain ⟨hx, hb⟩ := hadds.heldByBoth hq
  rcases (holds_upsert _).mp hb with hb | hb
  · exact .inl ⟨hx, hb⟩
  · exact .inr ⟨hb, hx⟩

theorem materializeEdgeArchive_beliefs (h : materializeEdgeArchive evt p = .ok q) :
    ∀ b' ∈ q.beliefs.rows, ∃ b ∈ p.beliefs.rows, b'.id = b.id ∧ (b'.active → b.active) := by
  obtain ⟨w, e, -, -, rfl⟩ := materializeEdgeArchive_eq_ok h
  intro b' hb'
  split_ifs at hb' with hev
  · obtain ⟨b, hb, rfl⟩ := List.mem_map.mp hb'
    refine ⟨b, hb, ?_⟩
    split_ifs
    · exact ⟨rfl, fun h => h⟩
    · exact ⟨rfl, fun h => h⟩
  · exact ⟨b', hb', rfl, fun h => h⟩

theorem materializeEdgeArchive_ids (h : materializeEdgeArchive evt p = .ok q) :
    (∀ id, q.beliefs.Holds id ↔ p.beliefs.Holds id) ∧ q.experiences = p.experiences := by
  obtain ⟨w, e, -, -, rfl⟩ := materializeEdgeArchive_eq_ok h
  split_ifs <;> simp

theorem find?_archiveEdge (he : edges.find? id = some e) :
    (archiveEdge edges id).find? id = some { e with archived := true } := by
  obtain ⟨hmem, rfl⟩ := find?_eq_some.mp he
  refine find?_eq_some.mpr ⟨List.mem_map.mpr ⟨e, hmem, ?_⟩, rfl⟩
  rw [if_pos (by simp)]

theorem archived_rested {cand : Event} {r : Projection} {ledger : Table LedgerRow.seq} (hp : Rested p)
    (hpay : cand.payload = evt.payload) (hq : materializeEdgeArchive evt p = .ok q)
    (hr : materializeEdgeArchive cand { p with ledger := ledger } = .ok r)
    (hcheck : validateActiveBeliefGroundingLocked r evt.payload = .ok ()) : Rested q := by
  have hbeliefs := materializeEdgeArchive_beliefs hq
  obtain ⟨hids, hexp⟩ := materializeEdgeArchive_ids hq
  have hsource : ∀ id, Source p id → Source q id := fun id hs => by rwa [Source, hids, hexp]
  obtain ⟨w, e, hw, he, rfl⟩ := materializeEdgeArchive_eq_ok hq
  obtain ⟨w', e', hw', he', rfl⟩ := materializeEdgeArchive_eq_ok hr
  obtain rfl : w = w' := some_inj.mp (hw.symm.trans (hpay ▸ hw'))
  obtain rfl : e = e' := some_inj.mp (he.symm.trans he')
  intro b' hb' ha
  obtain ⟨b, hb, hid, hact⟩ := hbeliefs b' hb'
  by_cases hhit : e.edgeType.evidence ∧ b'.id = e.toId
  · simp only [validateActiveBeliefGroundingLocked, bind_eq_ok, orDeny_eq_ok] at hcheck
    obtain ⟨w', hw'', g, hg, hcheck⟩ := hcheck
    obtain rfl : w = w' := some_inj.mp (hw.symm.trans hw'')
    obtain rfl : _ = g := some_inj.mp ((find?_archiveEdge he).symm.trans hg)
    rw [if_pos ⟨hhit.1, b', hb', hhit.2, ha⟩, allow_eq_ok, List.any_eq_true] at hcheck
    obtain ⟨g, hg⟩ := hcheck
    rw [hhit.2]
    exact ⟨g, (grounds_iff.mp hg).1⟩
  · obtain ⟨g, hg⟩ := hp b hb (hact ha)
    have hne : g.id ≠ w.id := fun h => by
      obtain ⟨hmem, hwid⟩ := find?_eq_some.mp he
      obtain rfl := eq_of_key_eq hg.mem hmem (h.trans hwid.symm)
      have hev := hg.evidence
      simp only [Edge.evidenceFor, Bool.and_eq_true, decide_eq_true_eq] at hev
      exact hhit ⟨hev.2, hid.trans hev.1.1.symm⟩
    exact ⟨g, hid ▸ ⟨List.mem_map.mpr ⟨g, hg.mem, if_neg (by simpa using hne)⟩, hg.evidence, hg.ne,
      hsource _ hg.source⟩⟩

/-! ### One event -/

theorem accept_rested {a : Arrival} (hp : Rested p) (hd : Distinct p)
    (hq : accept h p a = .ok q) : Rested q ∧ Distinct q := by
  obtain ⟨hv, hq⟩ := accept_eq_ok hq
  obtain ⟨type, ledger, htype, hq⟩ := materializeLocked_eq_ok hq
  obtain ⟨-, hbelief, -, -, -, hid, r, hr, hcheck⟩ := validateEvent_eq_ok htype hv
  have hsame : Quiet p { p with ledger := ledger, live := a.live } := .of_eq rfl rfl rfl
  have hp := hsame.adds.rested hp
  have of_adds : Adds { p with ledger := ledger, live := a.live } q → Rested q ∧ Distinct q := fun ha =>
    ⟨ha.rested hp, fun id hq => hd id (ha.heldByBoth hq)⟩
  -- a written belief comes with an origin; of the rest only an archive can take a ground away
  by_cases ht : isBeliefText type
  · obtain ⟨b, refs, -, hw, -, hq⟩ := handle_belief htype ht hq
    obtain ⟨ref, refs, rfl⟩ := admitted_origins ht hbelief hw
    refine ⟨written_rested hp hq, fun id hboth => ?_⟩
    rcases written_heldByBoth hq hboth with hboth | ⟨rfl, hx⟩
    · exact hd id hboth
    · by_contra hne
      have helse := admitted_sourceId hid (readId_of_writtenBelief hw) hne
      refine hne (hd b.id ⟨hx, ?_⟩)
      by_contra hb
      cases type with
      | beliefUpsert => exact helse ⟨hx, hb⟩
      | workingStyleUpsert => exact helse ⟨hx, hb⟩
      | _ => cases ht
  by_cases hquiet : isQuiet type
  · exact of_adds (handle_quiet hq hquiet).adds
  cases type with
  | beliefSupersede =>
    obtain ⟨s, hs, rfl | ⟨e, hfree, -, rfl⟩⟩ := materializeBeliefSupersede_cases hq
    · exact of_adds hs.adds
    · exact of_adds (hs.adds.trans (adds_push hfree))
  | edgeCreate =>
    obtain ⟨e, hfree, -, rfl⟩ := materializeEdgeLocked_eq_ok hq
    refine of_adds ((adds_push hfree).trans ?_)
    by_cases he : e.edgeType.evidence
    · simp only [he]
      exact adds_count _ e.toId (some a.event.seq)
    · simp only [he]
      exact .refl _
  | edgeArchive =>
    obtain ⟨hids, hexp⟩ := materializeEdgeArchive_ids hq
    obtain ⟨type, ledger', htype', hr⟩ := materializeLocked_eq_ok hr
    obtain rfl : .edgeArchive = type := some_inj.mp (htype.symm.trans htype')
    refine ⟨archived_rested hp rfl hq hr (hcheck rfl), ?_⟩
    rintro id ⟨hx, hb⟩
    exact hd id ⟨hexp ▸ hx, (hids id).mp hb⟩
  | experienceCreate =>
    obtain ⟨w, x, hw, ⟨hxid, -, -⟩, rfl⟩ := materializeExperience_eq_ok hq
    have hsource : ∀ id, Source p id → Source
        { p with experiences := p.experiences.replace x, ledger := ledger, live := a.live } id :=
      fun id hs => hs.imp (fun h => holds_replace.mpr (.inl h)) fun h => h
    constructor
    · intro b hb ha
      obtain ⟨e, he⟩ := hp b hb ha
      exact ⟨e, he.grow (fun _ h => h) hsource⟩
    · rintro id ⟨hx, hb⟩
      rcases holds_replace.mp hx with hx | rfl
      · exact hd id ⟨hx, hb⟩
      · by_contra hne
        have helse := admitted_sourceId hid (unmarshal_view experience_views hw) (hxid ▸ hne)
        rw [← hxid] at helse
        refine hne (hd x.id ⟨?_, hb⟩)
        by_contra hx
        exact helse ⟨hb, hx⟩
  | _ => first | exact absurd rfl hquiet | exact absurd rfl ht

/-! ### Runs -/

theorem accepted_rested {arrivals : List Arrival} (hp : accepted h arrivals = .ok p) :
    Rested p ∧ Distinct p := by
  refine foldlM_ok_invariant (P := fun p => Rested p ∧ Distinct p) hp ⟨?_, ?_⟩ ?_
  · intro b hb
    cases hb
  · rintro id ⟨hx, -⟩
    exact absurd hx (not_holds_empty id)
  · rintro p a q - ⟨hp, hd⟩ hq
    exact accept_rested hp hd hq

/-- Every active belief has evidence from a different id that names one source. -/
def Grounded (p : Projection) : Prop :=
  ∀ b ∈ p.beliefs.rows, b.active → ∃ e ∈ p.edges.rows, e.grounds p b.id

instance (p : Projection) : Decidable (Grounded p) :=
  inferInstanceAs (Decidable (∀ b ∈ _, _ → ∃ e ∈ _, _))

/-- The active beliefs are grounded unless the empty id names an experience and a belief
and one of them rests on nothing else. -/
theorem active_beliefs_grounded_iff {h : Host} {arrivals : List Arrival} {p : Projection}
    (hp : accepted h arrivals = .ok p) :
    Grounded p ↔ (HeldByBoth p [] → ∀ b ∈ p.beliefs.rows, b.active →
      ∃ e, Rests p e b.id ∧ e.fromId ≠ []) := by
  obtain ⟨hrested, hdistinct⟩ := accepted_rested hp
  constructor
  · intro hg hboth b hb ha
    obtain ⟨e, he⟩ := hg b hb ha
    obtain ⟨hr, hsingle⟩ := grounds_iff.mp he
    exact ⟨e, hr, fun h => hsingle (h ▸ hboth)⟩
  · intro hc b hb ha
    by_cases hboth : HeldByBoth p []
    · obtain ⟨e, hr, hne⟩ := hc hboth b hb ha
      exact ⟨e, grounds_iff.mpr ⟨hr, fun h => hne (hdistinct _ h)⟩⟩
    · obtain ⟨e, hr⟩ := hrested b hb ha
      exact ⟨e, grounds_iff.mpr ⟨hr, fun h => hboth (hdistinct _ h ▸ h)⟩⟩

/-- An experience without an id becomes the only evidence of `b`, and then a belief takes
the empty id too. -/
def emptySource : List Arrival := [plainArrival 1 "experience.create" "\x7b\"content\":\"x\"\x7d",
    experienceArrival 2 "e" "y",
    beliefArrival 3 "\"id\":\"b\",\"statement\":\"s\"",
    plainArrival 4 "edge.create" "\x7b\"id\":\"g\",\"to_id\":\"b\",\"edge_type\":\"SUPPORTS\"\x7d",
    plainArrival 5 "edge.archive" "\x7b\"id\":\"edge_origin_3_0\"\x7d",
    beliefArrival 6 "\"statement\":\"t\""]

theorem emptySource_grounded_at_first :
    ∃ p, accepted plainHost (emptySource.take 3) = .ok p ∧ Grounded p := by
  obtain ⟨p, hp, hfree⟩ : ∃ p, accepted plainHost (emptySource.take 3) = .ok p ∧ ¬ p.beliefs.Holds [] :=
    exists_ok (by decide +kernel)
  exact ⟨p, hp, (active_beliefs_grounded_iff hp).mpr fun hboth => absurd hboth.2 hfree⟩

theorem emptySource_not_grounded : ∃ p, accepted plainHost emptySource = .ok p ∧ ¬ Grounded p := by
  exact exists_ok (by decide +kernel)

end AiiOs.Store
