import AiiOs.Store.Grounding
import AiiOs.Lib.Successor

/-! Beliefs that were archived or superseded. A successor is an active belief when it is
named, so the way along the successors always ends; and nothing but a write under the
empty id, which admission does not look at, touches a retired belief's statement. -/

namespace AiiOs.Store
open Lib Lib.Json AiiOs.Ledger List Option Table

/-! ### What an event leaves of one belief -/

/-- What an event that supersedes nothing leaves under an id; `text` is what the event
writes there. -/
inductive After (text : Option Text) : Option Belief → Option Belief → Prop
  | missing : After text none none
  | new {b : Belief} (h : text = some b.statement) (hsup : b.supersededBy = none) :
    After text none (some b)
  | kept {b b' : Belief} (hsup : b'.supersededBy = b.supersededBy)
    (harch : b.archived → b'.archived)
    (htext : b'.statement = text.getD b.statement) : After text (some b) (some b')

variable {text : Option Text} {o o' : Option Belief} {p q : Projection} {beliefs : Table Belief.id}
  {type : EventType} {evt : Event} {h : Host} {b : Belief}

theorem After.refl (o : Option Belief) : After none o o := by
  cases o with
  | none => exact .missing
  | some b => exact .kept rfl id rfl

theorem After.trans {o'' : Option Belief} (h : After text o o') (h' : After none o' o'') :
    After text o o'' := by
  cases h with
  | missing =>
    cases h' with
    | missing => exact .missing
    | new hno _ => cases hno
  | new hw hsup =>
    cases h' with
    | kept hsup' _ htext' => exact .new (hw.trans (congrArg some htext'.symm)) (hsup'.trans hsup)
  | kept hsup harch htext =>
    cases h' with
    | kept hsup' harch' htext' =>
      exact .kept (hsup'.trans hsup) (fun h => harch' (harch h)) (htext'.trans htext)

def Retains (p q : Projection) : Prop := ∀ id, After none (p.beliefs.find? id) (q.beliefs.find? id)

theorem Retains.of_eq (h : q.beliefs = p.beliefs) : Retains p q := by
  intro id
  rw [h]
  exact .refl _

theorem Retains.trans {r : Projection} (h : Retains p q) (h' : Retains q r) : Retains p r :=
  fun id => (h id).trans (h' id)

variable {c : Belief → Bool} {f : Belief → Belief} {payload : Bytes} {w : BeliefSupersedePayload}
  {id : Text} {a : Arrival} {arrivals later : List Arrival}

theorem after_update (hid : ∀ b, (f b).id = b.id) (id : Text)
    (hsup : ∀ b, (f b).supersededBy = b.supersededBy)
    (harch : ∀ b, b.archived → (f b).archived)
    (htext : ∀ b, b.id = id → (if c b then f b else b).statement = text.getD b.statement) :
    After text (beliefs.find? id) ((beliefs.update c f hid).find? id) := by
  rw [find?_update hid]
  cases hfind : beliefs.find? id with
  | none => exact .missing
  | some b =>
    refine .kept ?_ (fun ha => ?_) (htext b (find?_eq_some.mp hfind).2) <;> dsimp only <;> split_ifs
    · exact hsup b
    · rfl
    · exact harch b ha
    · exact ha

structure Harmless (f : Belief → Belief) : Prop where
  id : ∀ b, (f b).id = b.id
  supersededBy : ∀ b, (f b).supersededBy = b.supersededBy
  archived : ∀ b, b.archived → (f b).archived
  statement : ∀ b, (f b).statement = b.statement

theorem retains_update (hq : q.beliefs.rows = p.beliefs.rows.map fun b => if c b then f b else b)
    (hf : Harmless f) : Retains p q := by
  have hq : q.beliefs = p.beliefs.update c f hf.id := Table.ext hq
  intro id
  rw [hq]
  refine after_update hf.id id hf.supersededBy hf.archived fun b _ => ?_
  split_ifs
  · exact hf.statement b
  · rfl

/-! ### The handlers -/

theorem materializeFacilityRun_retains (h : materializeFacilityRun type evt p = .ok q) : Retains p q := by
  refine materializeFacilityRun_invariant (fun r id hr => hr.trans ?_) (fun r c hr => hr.trans ?_) h
    (.of_eq rfl)
  · exact .of_eq rfl
  · exact retains_update rfl ⟨fun _ => rfl, fun _ => rfl, fun _ h => h, fun _ => rfl⟩

theorem retains_count (p : Projection) (id : Text) (seq : Option Nat) (edges : Table Edge.id) :
    Retains p { p with beliefs := countEvidence p.beliefs id seq, edges := edges } :=
  retains_update rfl ⟨fun _ => rfl, fun _ => rfl, fun _ h => h, fun _ => rfl⟩

theorem handle_retains (hq : handle h type evt p = .ok q) (ht : isBeliefText type = false)
    (hs : type ≠ .beliefSupersede) : Retains p q := by
  by_cases hplain : isPlain type
  · exact .of_eq (handle_untouched hq hplain).beliefs
  · cases type with
    | beliefPromote =>
      simp only [handle, materializeBeliefPromote, bind_eq_ok, pure_eq_ok] at hq
      obtain ⟨_, -, _, -, _, -, rfl⟩ := hq
      exact retains_update rfl ⟨fun _ => rfl, fun _ => rfl, fun _ h => h, fun _ => rfl⟩
    | beliefArchive =>
      simp only [handle, materializeBeliefArchive, bind_eq_ok, pure_eq_ok] at hq
      obtain ⟨_, -, _, -, rfl⟩ := hq
      exact retains_update rfl ⟨fun _ => rfl, fun _ => rfl, fun _ _ => rfl, fun _ => rfl⟩
    | consolidationRun => exact materializeFacilityRun_retains hq
    | dreamRun => exact materializeFacilityRun_retains hq
    | edgeCreate =>
      obtain ⟨e, hfree, -, rfl⟩ := materializeEdgeLocked_eq_ok hq
      by_cases he : e.edgeType.evidence
      · simp only [he]
        exact retains_count p e.toId (some evt.seq) (p.edges.push e hfree)
      · simp only [he]
        exact .of_eq rfl
    | edgeArchive =>
      obtain ⟨w, e, -, -, rfl⟩ := materializeEdgeArchive_eq_ok hq
      by_cases he : e.edgeType.evidence
      · simp only [he]
        exact retains_update rfl ⟨fun _ => rfl, fun _ => rfl, fun _ h => h, fun _ => rfl⟩
      · simp only [he]
        exact .of_eq rfl
    | experienceCreate =>
      obtain ⟨w, x, -, -, rfl⟩ := materializeExperience_eq_ok hq
      exact .of_eq rfl
    | beliefSupersede => exact absurd rfl hs
    | _ => first | exact absurd rfl hplain | cases ht

theorem upsertBelief_after (hb : b.supersededBy = none) (id : Text) :
    After (if b.id = id then some b.statement else none) (beliefs.find? id)
      ((upsertBelief beliefs b).find? id) := by
  rw [upsertBelief, Table.upsert]
  by_cases hheld : beliefs.Holds b.id
  · rw [dif_pos hheld]
    refine after_update _ id (fun _ => rfl) (fun _ h => h) fun o ho => ?_
    simp only [ho, eq_comm (a := id), decide_eq_true_eq]
    split_ifs <;> rfl
  · rw [dif_neg hheld, find?_push hheld]
    split_ifs with hid hid' hid'
    · rw [← hid, Table.find?_eq_none.mpr hheld]
      exact .new rfl hb
    · exact absurd hid.symm hid'
    · exact absurd hid'.symm hid
    · exact .refl _

def writtenId (h : Host) (evt : Event) : Option Text := (writtenBelief h evt).map Prod.fst

def textFor (h : Host) (evt : Event) (id : Text) : Option Text :=
  if writtenId h evt = some id then writtenText h evt else none

theorem handle_after (htype : EventType.ofBytes? evt.type = some type) (hq : handle h type evt p = .ok q)
    (hs : type ≠ .beliefSupersede) (id : Text) :
    After (textFor h evt id) (p.beliefs.find? id) (q.beliefs.find? id) := by
  by_cases ht : isBeliefText type
  · obtain ⟨b, refs, hb, hw, htext, hq⟩ := handle_belief htype ht hq
    have hsup : b.supersededBy = none := by
      have hact := hb.active
      simp only [Belief.active, Bool.and_eq_true, decide_eq_true_eq] at hact
      exact hact.2
    have hrest : Retains { p with beliefs := upsertBelief p.beliefs b } q := by
      refine materializeBeliefOriginsLocked_invariant
        (P := Retains { p with beliefs := upsertBelief p.beliefs b }) hq (.of_eq rfl) ?_
      intro i origin r r' hr h
      rcases insertOrigin_cases h with rfl | ⟨e, hfree, -, -, -, -, rfl⟩
      · exact hr
      · exact hr.trans (retains_count r b.id none (r.edges.push e hfree))
    simp only [textFor, writtenId, hw, htext, map_some, some_inj]
    exact (upsertBelief_after hsup id).trans (hrest id)
  · have ht : isBeliefText type = false := by simpa using ht
    simpa [textFor, writtenId, writtenBelief_eq_none htype ht] using handle_retains hq ht hs id

/-! ### What admission has checked -/

theorem supersede_views :
    Views BeliefSupersedePayload.fields SuccessorPayload.fields fun w => ⟨w.oldId, w.newId⟩ where
  names := by decide
  shared := by simp [BeliefSupersedePayload.fields, SuccessorPayload.fields, field]
  other := by simp [BeliefSupersedePayload.fields, SuccessorPayload.fields, field]
  folded := by decide

theorem admitted_successor (hv : validateSupersedeSuccessorLocked p .beliefSupersede payload = .ok ())
    (hw : readBeliefSupersede payload = some w) :
    w.newId ≠ w.oldId ∧ ∃ b, p.beliefs.find? w.newId = some b ∧ b.supersededBy = none := by
  have hread : readSuccessor payload = _ := unmarshal_view supersede_views hw
  simp only [validateSupersedeSuccessorLocked, ne_eq, not_true_eq_false, if_false, hread,
    bind_eq_ok, allow_eq_ok, orDeny_eq_ok] at hv
  obtain ⟨_, hne, b, hb, hsup⟩ := hv
  exact ⟨hne, b, (filter_eq_some_iff.mp hb).1, hsup⟩

theorem admitted_active (htype : EventType.ofBytes? evt.type = some type)
    (hv : validateRetiredBeliefLocked p type evt.payload = .ok ()) (hw : writtenId h evt = some id)
    (hne : id ≠ []) (hb : p.beliefs.find? id = some b) : b.active := by
  obtain ⟨⟨id', refs⟩, hwritten, rfl⟩ := map_eq_some_iff.mp hw
  have ht : isBeliefText type := by
    by_contra ht
    rw [writtenBelief_eq_none htype (by simpa using ht)] at hwritten
    cases hwritten
  simpa only [validateRetiredBeliefLocked, ht, Bool.true_or, Bool.not_true, Bool.false_eq_true,
    if_false, readId_of_writtenBelief hwritten, if_neg hne, hb, allow_eq_ok] using hv

theorem materializeBeliefSupersede_eq_ok (h : materializeBeliefSupersede evt p = .ok q) :
    ∃ w, readBeliefSupersede evt.payload = some w ∧ p.beliefs.Holds w.oldId ∧
      q.beliefs = p.beliefs.update (fun b => b.id = w.oldId)
        (fun b => { b with supersededBy := some w.newId, lastSeq := evt.seq }) fun _ => rfl := by
  simp only [materializeBeliefSupersede, bind_eq_ok, pure_eq_ok, require_eq_ok, orRefuse_eq_ok] at h
  obtain ⟨w, hw, _, hheld, _, -, rfl⟩ := h
  exact ⟨w, hw, hheld, rfl⟩

/-! ### The way along the successors -/

def beliefSuccessor (p : Projection) (id : Text) : Option Text :=
  (p.beliefs.find? id).bind Belief.supersededBy

theorem After.supersededBy (h : After text o o') :
    o'.bind Belief.supersededBy = o.bind Belief.supersededBy := by
  cases h with
  | missing => rfl
  | new _ hsup => exact hsup
  | kept hsup _ _ => exact hsup

theorem After.held (h : After text o o') (hb : o = some b) : ∃ b', o' = some b' := by
  cases h with
  | missing => cases hb
  | new _ _ => cases hb
  | kept _ _ _ => exact ⟨_, rfl⟩

/-- From every belief the successors lead to a belief that is not superseded. -/
def Leads (p : Projection) : Prop :=
  ∀ id, p.beliefs.Holds id → ∃ last, p.beliefs.Holds last ∧ Ends (beliefSuccessor p) id last

theorem holds_iff_find? : beliefs.Holds id ↔ ∃ b, beliefs.find? id = some b := by
  rw [← isSome_iff_exists, ← ne_none_iff_isSome, ne_eq, Table.find?_eq_none, not_not]

theorem Leads.after {texts : Text → Option Text} (hp : Leads p)
    (h : ∀ id, After (texts id) (p.beliefs.find? id) (q.beliefs.find? id)) : Leads q := by
  have hsame : ∀ id, beliefSuccessor q id = beliefSuccessor p id := fun id => (h id).supersededBy
  have hheld : ∀ id, p.beliefs.Holds id → q.beliefs.Holds id := fun id hid => by
    obtain ⟨b, hb⟩ := holds_iff_find?.mp hid
    exact holds_iff_find?.mpr ((h id).held hb)
  intro id hid
  by_cases hold : p.beliefs.Holds id
  · obtain ⟨last, hlast, hends⟩ := hp id hold
    exact ⟨last, hheld last hlast, hends.congr hsame⟩
  · -- a new belief has no successor
    refine ⟨id, hid, .stop ?_⟩
    rw [hsame, beliefSuccessor, Table.find?_eq_none.mpr hold]
    rfl

theorem Leads.supersede (hp : Leads p) {old new : Text} {seq : Nat} (hne : new ≠ old)
    (hold : p.beliefs.Holds old) (hnew : p.beliefs.find? new = some b) (hb : b.supersededBy = none)
    (hq : q.beliefs = p.beliefs.update (fun b => b.id = old)
      (fun b => { b with supersededBy := some new, lastSeq := seq }) fun _ => rfl) :
    Leads q := by
  obtain ⟨o, ho⟩ := holds_iff_find?.mp hold
  have hfind : ∀ id, q.beliefs.find? id
      = if id = old then some { o with supersededBy := some new, lastSeq := seq }
        else p.beliefs.find? id := by
    intro id
    rw [hq]
    exact find?_update_one _ (fun _ h => by simpa using h) ho (by simpa using (find?_eq_some.mp ho).2) id
  have hheld : ∀ id, q.beliefs.Holds id ↔ p.beliefs.Holds id := fun id => by rw [hq, holds_update]
  have hnext : beliefSuccessor q old = some new := by rw [beliefSuccessor, hfind, if_pos rfl, bind_some]
  have hend : beliefSuccessor q new = none := by rw [beliefSuccessor, hfind, if_neg hne, hnew, bind_some, hb]
  have hother : ∀ id, id ≠ old → id ≠ new → beliefSuccessor q id = beliefSuccessor p id := by
    intro id hid _
    rw [beliefSuccessor, hfind, if_neg hid]
    rfl
  have hnewq : q.beliefs.Holds new := (hheld new).mpr (holds_iff_find?.mpr ⟨b, hnew⟩)
  intro id hid
  obtain ⟨last, hlast, hends⟩ := hp id ((hheld id).mp hid)
  rcases hends.redirect hnext hend hother with hends | ⟨-, hends⟩
  · exact ⟨new, hnewq, hends⟩
  · exact ⟨last, (hheld last).mpr hlast, hends⟩

/-! ### One event -/

/-- What an admitted event leaves: the way along the successors still ends, and a retired
belief stays retired, under the words it had unless the event writes the empty id. -/
theorem accept_leads (hp : Leads p) (hq : accept h p a = .ok q) : Leads q := by
  obtain ⟨hv, hq⟩ := accept_eq_ok hq
  obtain ⟨type, ledger, htype, hq⟩ := materializeLocked_eq_ok hq
  have hsuccessor := (validateEvent_eq_ok htype hv).successor
  by_cases hs : type = .beliefSupersede
  · subst hs
    obtain ⟨w, hw, hold, hq⟩ := materializeBeliefSupersede_eq_ok hq
    obtain ⟨hne, b, hb, hsup⟩ := admitted_successor hsuccessor hw
    exact hp.supersede hne hold hb hsup hq
  · have hafter := handle_after htype hq hs
    exact hp.after hafter

/-- The belief is retired at least as it was in `b`. -/
structure StaysRetired (b b' : Belief) : Prop where
  archived : b.archived → b'.archived
  supersededBy : b.supersededBy ≠ none → b'.supersededBy ≠ none

theorem StaysRetired.active {b' : Belief} (h : StaysRetired b b') (hb : b.active = false) :
    b'.active = false := by
  simp only [Belief.active, Bool.and_eq_false_iff, Bool.not_eq_false', decide_eq_false_iff_not] at hb ⊢
  exact hb.imp h.archived h.supersededBy

theorem accept_retired (hq : accept h p a = .ok q)
    (hb : p.beliefs.find? id = some b) (hretired : b.active = false) :
    ∃ b', q.beliefs.find? id = some b' ∧ StaysRetired b b' ∧
      (id ≠ [] ∨ writtenId h a.event ≠ some [] → b'.statement = b.statement) := by
  obtain ⟨hv, hq⟩ := accept_eq_ok hq
  obtain ⟨type, ledger, htype, hq⟩ := materializeLocked_eq_ok hq
  have hactive := (validateEvent_eq_ok htype hv).retired
  by_cases hs : type = .beliefSupersede
  · subst hs
    obtain ⟨w, -, -, hq⟩ := materializeBeliefSupersede_eq_ok hq
    have hfind := congrArg (fun t : Table Belief.id => t.find? id) hq
    simp only [find?_update, hb, map_some] at hfind
    refine ⟨_, hfind, ?_⟩
    split_ifs
    · exact ⟨⟨fun h => h, fun _ => by simp⟩, fun _ => rfl⟩
    · exact ⟨⟨fun h => h, fun h => h⟩, fun _ => rfl⟩
  · have hafter := handle_after htype hq hs id
    rw [show ({ p with ledger := ledger, live := a.live } : Projection).beliefs.find? id =
      some b from hb] at hafter
    generalize hfind : q.beliefs.find? id = o at hafter
    cases hafter with
    | kept hsup harch htext =>
      refine ⟨_, rfl, ⟨harch, fun h => hsup ▸ h⟩, fun hid => ?_⟩
      have hnot : writtenId h a.event ≠ some id := fun hw => by
        have hne : id ≠ [] := fun he => hid.elim (fun h => h he) fun h => h (he ▸ hw)
        have := admitted_active htype hactive hw hne hb
        rw [hretired] at this
        cases this
      rw [htext, textFor, if_neg hnot]
      rfl

/-! ### Runs -/

theorem accepted_leads (hp : accepted h arrivals = .ok p) : Leads p := by
  refine foldlM_ok_invariant hp ?_ fun p a q _ => accept_leads
  intro id hid
  exact absurd hid (not_holds_empty id)

theorem run_retired (hq : later.foldlM (accept h) p = .ok q)
    (hb : p.beliefs.find? id = some b) (hretired : b.active = false) :
    ∃ b', q.beliefs.find? id = some b' ∧ StaysRetired b b' ∧
      ((id ≠ [] ∨ ∀ a ∈ later, writtenId h a.event ≠ some []) → b'.statement = b.statement) := by
  induction later generalizing p b with
  | nil =>
    cases hq
    exact ⟨b, hb, ⟨fun h => h, fun h => h⟩, fun _ => rfl⟩
  | cons a later ih =>
    obtain ⟨r, hr, hq⟩ := bind_eq_ok.mp hq
    obtain ⟨c, hc, hstay, htext⟩ := accept_retired hr hb hretired
    obtain ⟨d, hd, hstay', htext'⟩ := ih hq hc (hstay.active hretired)
    refine ⟨d, hd, ⟨fun h => hstay'.archived (hstay.archived h),
      fun h => hstay'.supersededBy (hstay.supersededBy h)⟩, fun hid => ?_⟩
    have hnow : id ≠ [] ∨ writtenId h a.event ≠ some [] := hid.imp_right fun h => h a mem_cons_self
    have hthen : id ≠ [] ∨ ∀ a ∈ later, writtenId h a.event ≠ some [] :=
      hid.imp_right fun h a ha => h a (mem_cons_of_mem _ ha)
    exact (htext' hthen).trans (htext hnow)

/-- In every admitted history the successors of beliefs form no loop and lead from any
belief to one that is not superseded; and a belief that is retired stays so through what
comes later, with its statement unless it has the empty id and that id is written again. -/
theorem beliefs_retire_for_good {h : Host} {arrivals later : List Arrival} {p q : Projection}
    (hp : accepted h arrivals = .ok p) (hq : later.foldlM (accept h) p = .ok q) :
    (∀ b ∈ p.beliefs.rows, ∃ last ∈ p.beliefs.rows, last.supersededBy = none ∧
        Ends (beliefSuccessor p) b.id last.id) ∧
      (∀ id, ¬ Relation.TransGen (fun a b => beliefSuccessor p a = some b) id id) ∧
      ∀ b ∈ p.beliefs.rows, b.active = false → ∃ b' ∈ q.beliefs.rows, b'.id = b.id ∧
        b'.active = false ∧
        ((b.id ≠ [] ∨ ∀ a ∈ later, writtenId h a.event ≠ some []) → b'.statement = b.statement) := by
  have hleads := accepted_leads hp
  refine ⟨?_, ?_, ?_⟩
  · intro b hb
    obtain ⟨id, hid, hends⟩ := hleads b.id (holds_of_mem hb)
    obtain ⟨last, hlast⟩ := holds_iff_find?.mp hid
    obtain ⟨hmem, rfl⟩ := find?_eq_some.mp hlast
    have hnone := hends.next_eq_none
    rw [beliefSuccessor, hlast] at hnone
    exact ⟨last, hmem, hnone, hends⟩
  · intro id
    by_cases hid : p.beliefs.Holds id
    · obtain ⟨last, -, hends⟩ := hleads id hid
      exact hends.acyclic
    · refine Ends.acyclic (.stop ?_)
      rw [beliefSuccessor, Table.find?_eq_none.mpr hid]
      rfl
  · intro b hb hretired
    obtain ⟨b', hb', hstay, htext⟩ := run_retired hq (find?_eq_some.mpr ⟨hb, rfl⟩) hretired
    obtain ⟨hmem, hid⟩ := find?_eq_some.mp hb'
    exact ⟨b', hmem, hid, hstay.active hretired, htext⟩

/-- `b` is superseded by `c`. -/
def supersededOnce : List Arrival :=
  [experienceArrival 1 "e" "x", beliefArrival 2 "\"id\":\"b\",\"statement\":\"s\"",
    beliefArrival 3 "\"id\":\"c\",\"statement\":\"t\"",
    plainArrival 4 "belief.supersede" "\x7b\"old_id\":\"b\",\"new_id\":\"c\"\x7d"]

def archivedThen : List Arrival := [plainArrival 5 "belief.archive" "\x7b\"id\":\"c\"\x7d",
    plainArrival 6 "belief.archive" "\x7b\"id\":\"b\"\x7d"]

theorem beliefs_retire_for_good_superseded : ∃ p q, accepted plainHost supersededOnce = .ok p ∧
      archivedThen.foldlM (accept plainHost) p = .ok q ∧ beliefSuccessor p "b".toList = some "c".toList ∧
      (∀ b ∈ p.beliefs.rows, ∃ last ∈ p.beliefs.rows, last.supersededBy = none ∧
        Ends (beliefSuccessor p) b.id last.id) ∧
      ∀ b ∈ p.beliefs.rows, b.active = false → ∃ b' ∈ q.beliefs.rows, b'.id = b.id ∧
        b'.active = false ∧ b'.statement = b.statement := by
  obtain ⟨p, hp, hsup⟩ : ∃ p, accepted plainHost supersededOnce = .ok p ∧
      beliefSuccessor p "b".toList = some "c".toList := exists_ok (by decide +kernel)
  obtain ⟨q, hq, -⟩ := exists_ok (c := fun _ => True)
    (show (accepted plainHost (supersededOnce ++ archivedThen)).toOption.any _ by decide +kernel)
  rw [accepted, foldlM_append] at hq
  obtain ⟨r, hr, hlater⟩ := bind_eq_ok.mp hq
  obtain rfl : p = r := Except.ok.inj (hp.symm.trans hr)
  obtain ⟨hends, -, hretired⟩ := beliefs_retire_for_good hp hlater
  refine ⟨p, q, hp, hlater, hsup, hends, fun b hb h => ?_⟩
  obtain ⟨b', hb', hid, hact, htext⟩ := hretired b hb h
  exact ⟨b', hb', hid, hact, htext (.inr (by decide +kernel))⟩

def rewrittenAfter : List Arrival :=
  [experienceArrival 1 "e" "x", beliefArrival 2 "\"statement\":\"s\"",
    plainArrival 3 "belief.archive" "\x7b\x7d", beliefArrival 4 "\"statement\":\"t\""]

theorem archived_statement_rewritten : ∃ p q, accepted plainHost (rewrittenAfter.take 3) = .ok p ∧
      accepted plainHost rewrittenAfter = .ok q ∧
      p.beliefs.rows.map (fun b => (b.id, b.active, b.statement)) = [([], false, "s".toList)] ∧
      q.beliefs.rows.map (fun b => (b.id, b.active, b.statement)) = [([], false, "t".toList)] := by
  obtain ⟨p, hp, hbefore⟩ : ∃ p, accepted plainHost (rewrittenAfter.take 3) = .ok p ∧
      p.beliefs.rows.map (fun b => (b.id, b.active, b.statement)) = [([], false, "s".toList)] :=
    exists_ok (by decide +kernel)
  obtain ⟨q, hq, hafter⟩ : ∃ q, accepted plainHost rewrittenAfter = .ok q ∧
      q.beliefs.rows.map (fun b => (b.id, b.active, b.statement)) = [([], false, "t".toList)] :=
    exists_ok (by decide +kernel)
  exact ⟨p, q, hp, hq, hbefore, hafter⟩

end AiiOs.Store
