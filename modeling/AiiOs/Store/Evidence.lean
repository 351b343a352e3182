import AiiOs.Store.Effects
import Mathlib.Data.List.Induction

/-! The evidence counter of a belief against the edges it counts. Every handler keeps the
two in step; a belief that is created where edges wait already starts behind by their
number. -/

namespace AiiOs.Store
open Lib Lib.Json AiiOs.Ledger List Option Table

/-- Each belief's counter is the number of its evidence edges. -/
def Counted (p : Projection) : Prop :=
  ∀ b ∈ p.beliefs.rows, b.evidenceCount = evidenceEdges p.edges b.id

instance (p : Projection) : Decidable (Counted p) := inferInstanceAs (Decidable (∀ b ∈ _, _))

/-- The counter of the belief under an id, if there is one, is `k` behind its edges. -/
def Behind (p : Projection) (id : Text) (k : Nat) : Prop :=
  ∀ b ∈ p.beliefs.rows, b.id = id → evidenceEdges p.edges id = b.evidenceCount + k

variable {p : Projection}

theorem counted_iff_behind : Counted p ↔ ∀ id, Behind p id 0 := by
  constructor
  · rintro h id b hb rfl
    exact (h b hb).symm
  · intro h b hb
    exact (h b.id b hb rfl).symm

variable {k : Nat}

theorem Behind.unique {id : Text} {l : Nat} (h : Behind p id k)
    (h' : Behind p id l) (hid : p.beliefs.Holds id) : k = l := by
  obtain ⟨b, hb, rfl⟩ := Table.holds_iff.mp hid
  have := h b hb rfl
  have := h' b hb rfl
  omega

/-! ### One step -/

variable {q : Projection}

theorem Quiet.behind {id : Text} (h : Quiet p q) (hp : Behind p id k) : Behind q id k := by
  intro b' hb' hid
  obtain ⟨b, hb, hbid, hcount, -⟩ := h.beliefs b' hb'
  rw [h.edges, hcount]
  exact hp b hb (hbid.symm.trans hid)

variable {e : Edge}

variable {edges : Table Edge.id} {h : Host}

theorem evidenceEdges_push (hfree : ¬ edges.Holds e.id) (id : Text) :
    evidenceEdges (edges.push e hfree) id = evidenceEdges edges id + if e.evidenceFor id then 1 else 0 := by
  simp [evidenceEdges, Table.push]

theorem behind_push (hfree : ¬ p.edges.Holds e.id) (he : e.edgeType.evidence = false) {id : Text}
    (hp : Behind p id k) : Behind { p with edges := p.edges.push e hfree } id k := by
  intro b hb hid
  simpa [evidenceEdges_push, Edge.evidenceFor, he] using hp b hb hid

theorem behind_push_count (hfree : ¬ p.edges.Holds e.id) (ha : e.archived = false)
    (he : e.edgeType.evidence) (seq : Option Nat) {id : Text} (hp : Behind p id k) :
    Behind { p with
      edges := p.edges.push e hfree, beliefs := countEvidence p.beliefs e.toId seq } id k := by
  intro b' hb' hid
  obtain ⟨b, hb, rfl⟩ := List.mem_map.mp hb'
  have hbid : b.id = id := by
    rw [← hid]
    split_ifs <;> rfl
  have hk := hp b hb hbid
  simp only [evidenceEdges_push, Edge.evidenceFor, ha, he]
  by_cases hto : e.toId = id
  · simp [hto, hbid]
    omega
  · have hne : b.id ≠ e.toId := fun h => hto (h.symm.trans hbid)
    simp [hto, hne, hk]

theorem insertOrigin_behind {type : EventType} {seq i : Nat} {origin target : Text} {id : Text}
    (hp : Behind p id k) (h : insertOrigin type seq i origin target p = .ok q) : Behind q id k := by
  rcases insertOrigin_cases h with rfl | ⟨e, hfree, -, rfl, he, ha, rfl⟩
  · exact hp
  · exact behind_push_count hfree ha (by rw [he]; rfl) none hp

theorem archiveEdge_evidence (he : e ∈ edges.rows) {id : Text}
    (h : e.edgeType.evidence = false ∨ e.toId ≠ id) :
    evidenceEdges (archiveEdge edges e.id) id = evidenceEdges edges id := by
  rw [evidenceEdges, archiveEdge, Table.update, countP_map]
  refine countP_congr fun a ha => ?_
  by_cases hid : a.id = e.id
  · -- the archived edge counted for another id or not at all
    obtain rfl := eq_of_key_eq ha he hid
    rcases h with h | h <;> simp [Edge.evidenceFor, h]
  · simp [hid]

variable {evt : Event}

theorem materializeEdgeArchive_behind {id : Text}
    (hp : Behind p id 0) (h : materializeEdgeArchive evt p = .ok q) : Behind q id 0 := by
  obtain ⟨w, e, -, he, rfl⟩ := materializeEdgeArchive_eq_ok h
  obtain ⟨hmem, hid⟩ := find?_eq_some.mp he
  rw [← hid]
  intro b' hb' hb'id
  split_ifs at hb' with hev
  · obtain ⟨b, hb, rfl⟩ := List.mem_map.mp hb'
    by_cases hto : b.id = e.toId
    · -- the counter is recounted
      simp only [hto] at hb'id ⊢
      rw [← hb'id]
      rfl
    · simp only [hto] at hb'id ⊢
      have hne : e.toId ≠ id := fun h => hto (hb'id.trans h.symm)
      rw [archiveEdge_evidence hmem (.inr hne)]
      exact hp b hb hb'id
  · have hev : e.edgeType.evidence = false := by simpa using hev
    rw [archiveEdge_evidence hmem (.inl hev)]
    exact hp b' hb' hb'id

theorem upsertBelief_behind {b : Belief} (hb : Fresh b) (hp : Counted p) (id : Text) :
    Behind { p with beliefs := upsertBelief p.beliefs b } id
      (if id = b.id ∧ ¬ p.beliefs.Holds id then evidenceEdges p.edges id else 0) := by
  intro a ha haid
  subst haid
  simp only [upsertBelief, Table.upsert] at ha
  split_ifs at ha with hheld
  · obtain ⟨o, ho, rfl⟩ := List.mem_map.mp ha
    have hid : (if decide (o.id = b.id) then
        { o with statement := b.statement, confidence := b.confidence, lastSeq := b.lastSeq } else o).id
          = o.id := by
      split_ifs <;> rfl
    have hkept : (if decide (o.id = b.id) then
        { o with statement := b.statement, confidence := b.confidence, lastSeq := b.lastSeq }
          else o).evidenceCount = o.evidenceCount := by
      split_ifs <;> rfl
    have hold : p.beliefs.Holds o.id := holds_of_mem ho
    rw [hid, hkept, if_neg (by simp [hold]), hp o ho, add_zero]
  · rcases (mem_push hheld).mp ha with ha | rfl
    · have hold : p.beliefs.Holds a.id := holds_of_mem ha
      rw [if_neg (by simp [hold]), hp a ha, add_zero]
    · rw [if_pos ⟨rfl, hheld⟩, hb.evidenceCount, zero_add]

/-! ### Events -/

def waiting (h : Host) (p : Projection) (evt : Event) (id : Text) : Nat :=
  if (writtenBelief h evt).map Prod.fst = some id ∧ ¬ p.beliefs.Holds id then evidenceEdges p.edges id
  else 0

theorem materializeLocked_behind (hp : Counted p)
    (hq : materializeLocked h evt p = .ok q) (id : Text) : Behind q id (waiting h p evt id) := by
  obtain ⟨type, ledger, htype, hq⟩ := materializeLocked_eq_ok hq
  have hp : Counted { p with ledger := ledger } := hp
  by_cases ht : isBeliefText type
  · obtain ⟨b, refs, hb, hw, -, hq⟩ := handle_belief htype ht hq
    simp only [waiting, hw, map_some, some_inj, eq_comm (a := b.id)]
    exact materializeBeliefOriginsLocked_invariant hq (upsertBelief_behind hb hp id)
      fun _ _ _ _ hp h => insertOrigin_behind hp h
  rw [waiting, writtenBelief_eq_none htype (by simpa using ht), if_neg (by simp)]
  have hp := counted_iff_behind.mp hp id
  by_cases hquiet : isQuiet type
  · exact (handle_quiet hq hquiet).behind hp
  cases type with
  | beliefSupersede =>
    obtain ⟨r, hr, rfl | ⟨e, hfree, he, rfl⟩⟩ := materializeBeliefSupersede_cases hq
    · exact hr.behind hp
    · exact behind_push hfree (by rw [he]; rfl) (hr.behind hp)
  | edgeCreate =>
    obtain ⟨e, hfree, ha, rfl⟩ := materializeEdgeLocked_eq_ok hq
    cases he : e.edgeType.evidence with
    | true => exact behind_push_count hfree ha he _ hp
    | false => exact behind_push hfree he hp
  | edgeArchive => exact materializeEdgeArchive_behind hp hq
  | experienceCreate =>
    obtain ⟨w, x, -, -, rfl⟩ := materializeExperience_eq_ok hq
    exact hp
  | _ => first | exact absurd rfl hquiet | exact absurd rfl ht

theorem holds_writtenBelief {id : Text} (hq : materializeLocked h evt p = .ok q)
    (hw : (writtenBelief h evt).map Prod.fst = some id) : q.beliefs.Holds id := by
  obtain ⟨type, ledger, htype, hq⟩ := materializeLocked_eq_ok hq
  by_cases ht : isBeliefText type
  · obtain ⟨b, refs, -, hb, -, hq⟩ := handle_belief htype ht hq
    rw [hb, map_some, some_inj] at hw
    subst hw
    refine materializeBeliefOriginsLocked_invariant (P := (·.beliefs.Holds b.id)) hq ?_ ?_
    · exact (holds_upsert _).mpr (.inr rfl)
    · intro i origin r r' hr h
      rcases insertOrigin_cases h with rfl | ⟨e, hfree, -, -, -, -, rfl⟩
      · exact hr
      · simpa [countEvidence] using hr
  · rw [writtenBelief_eq_none htype (by simpa using ht)] at hw
    cases hw

theorem materializeLocked_counted_iff (hp : Counted p)
    (hq : materializeLocked h evt p = .ok q) : Counted q ↔ ∀ id, waiting h p evt id = 0 := by
  have hbehind := materializeLocked_behind hp hq
  rw [counted_iff_behind]
  constructor
  · intro h id
    by_cases hw : (writtenBelief ‹_› evt).map Prod.fst = some id
    · exact (hbehind id).unique (h id) (holds_writtenBelief hq hw)
    · rw [waiting, if_neg fun hc => hw hc.1]
  · intro h id
    have := hbehind id
    rwa [h id] at this

/-! ### Runs -/

variable {arrivals : List Arrival}

section
variable {h : Host} {a : Arrival}

theorem accepted_concat : accepted h (arrivals ++ [a]) = .ok q ↔
      ∃ p, accepted h arrivals = .ok p ∧ accept h p a = .ok q := by
  simp [accepted, bind_eq_ok]

theorem accept_counted_iff (hp : Counted p)
    (hq : accept h p a = .ok q) : Counted q ↔ ∀ id, waiting h p a.event id = 0 :=
  materializeLocked_counted_iff (p := { p with live := a.live }) hp (accept_eq_ok hq).2

end

/-- In every state of a run the counters are right exactly when no event of it creates a
belief under an id that evidence edges point to already. -/
theorem evidence_counted_iff_none_waiting (h : Host) (arrivals : List Arrival) :
    (∀ before p, before <+: arrivals → accepted h before = .ok p → Counted p) ↔
      ∀ before a p q, before ++ [a] <+: arrivals → accepted h before = .ok p →
        accept h p a = .ok q → ∀ id, waiting h p a.event id = 0 := by
  constructor
  · intro h before a p q hpre hp hq
    have hcounted := h before p ((prefix_append _ _).trans hpre) hp
    exact (accept_counted_iff hcounted hq).mp (h _ q hpre (accepted_concat.mpr ⟨p, hp, hq⟩))
  · intro h before
    induction before using List.reverseRecOn with
    | nil =>
      rintro p - hp b hb
      cases hp
      cases hb
    | append_singleton before a ih =>
      intro q hpre hq
      obtain ⟨p, hp, hq⟩ := accepted_concat.mp hq
      have hcounted := ih p ((prefix_append _ _).trans hpre) hp
      exact (accept_counted_iff hcounted hq).mpr (h before a p q hpre hp hq)

def plainHost : Host :=
  ⟨⟨0, [], false⟩, fun _ => none, fun _ => true, fun _ => [], id, fun _ => true, id⟩

def plainArrival (seq : Nat) (type payload : String) : Arrival :=
  ⟨plainHost.toSettings, Projection.empty.live, [],
    ⟨seq, [], [], bytesOf type, 3, [], bytesOf payload, [], false, false, .none⟩⟩

def experienceArrival (seq : Nat) (id content : String) : Arrival :=
  plainArrival seq "experience.create" ("\x7b\"id\":\"" ++ id ++ "\",\"content\":\"" ++ content ++ "\"\x7d")

/-- A belief that rests on the experience `e`. -/
def beliefArrival (seq : Nat) (members : String) : Arrival :=
  plainArrival seq "belief.upsert"
    ("\x7b" ++ members ++ ",\"origin_refs\":[\x7b\"kind\":\"experience\",\"id\":\"e\"\x7d]\x7d")

theorem exists_ok {α ε : Type} {r : Except ε α} {c : α → Prop} [DecidablePred c] (h : r.toOption.any (c ·)) :
    ∃ a, r = .ok a ∧ c a := by
  cases r with
  | error e => cases h
  | ok a => exact ⟨a, rfl, of_decide_eq_true h⟩

/-- An edge supports `b` before there is a belief `b`. -/
def supportedEarly : List Arrival :=
  [experienceArrival 1 "e" "x",
    plainArrival 2 "edge.create"
      "\x7b\"id\":\"g\",\"from_id\":\"e\",\"to_id\":\"b\",\"edge_type\":\"SUPPORTS\"\x7d",
    beliefArrival 3 "\"id\":\"b\",\"statement\":\"s\""]

theorem supportedEarly_not_counted : ∃ p, accepted plainHost supportedEarly = .ok p ∧ ¬ Counted p := by
  exact exists_ok (by decide +kernel)

end AiiOs.Store
