import AiiOs.Store.Retired

/-! The words of beliefs. Admission compares a new text with those of all active beliefs,
so no two of them say the same; it guards the words of ring 2 by the ring a belief has at
that moment, and not at all under the empty id. -/

namespace AiiOs.Store
open Lib Lib.Json AiiOs.Ledger List Option Table

variable {h : Host} {p q : Projection} {type : EventType} {evt : Event} {id t : Text} {a : Arrival}
  {text : Option Text} {o o' : Option Belief}

def SayOnce (h : Host) (p : Projection) : Prop :=
  ∀ b ∈ p.beliefs.rows, ∀ c ∈ p.beliefs.rows, b.active → c.active →
    normalizedBeliefStatement h b.statement = normalizedBeliefStatement h c.statement → b = c

/-- What is in ring 2 in `p` has the same words in `q`. -/
def KeepsWords (p q : Projection) : Prop :=
  ∀ b ∈ p.beliefs.rows, b.ring = 2 → ∃ c ∈ q.beliefs.rows, c.id = b.id ∧ c.statement = b.statement

/-- The event gives a belief other words where the check of ring 2 does not look. -/
def RewordsUnseen (h : Host) (p : Projection) (evt : Event) (id : Text) : Prop :=
  ∃ c ∈ p.beliefs.rows, c.id = id ∧ (id = [] ∨ c.ring ≠ 2) ∧ ∃ t, textFor h evt id = some t ∧ t ≠ c.statement

/-! ### One belief -/

/-- What an event leaves under an id where it writes `text`. -/
inductive Row (text : Option Text) : Option Belief → Option Belief → Prop
  | missing : Row text none none
  | new {b : Belief} (h : text = some b.statement) : Row text none (some b)
  | kept {b b' : Belief} (hact : b'.active → b.active)
    (htext : b'.statement = text.getD b.statement) : Row text (some b) (some b')

theorem After.row (h : After text o o') : Row text o o' := by
  cases h with
  | missing => exact .missing
  | new hw hsup => exact .new hw
  | kept hsup harch htext =>
    refine .kept (fun hact => ?_) htext
    simp only [Belief.active, Bool.and_eq_true, Bool.not_eq_true'] at hact ⊢
    exact ⟨Bool.eq_false_iff.mpr fun h => Bool.eq_false_iff.mp hact.1 (harch h), hsup ▸ hact.2⟩

theorem accept_row (hq : accept h p a = .ok q) (id : Text) :
    Row (textFor h a.event id) (p.beliefs.find? id) (q.beliefs.find? id) := by
  obtain ⟨type, ledger, htype, hq⟩ := materializeLocked_eq_ok (accept_eq_ok hq).2
  by_cases hs : type = .beliefSupersede
  · subst hs
    obtain ⟨w, -, -, hq⟩ := materializeBeliefSupersede_eq_ok hq
    have hnone : textFor h a.event id = none := by simp [textFor, writtenId, writtenBelief_eq_none htype rfl]
    rw [hq, find?_update, hnone]
    cases p.beliefs.find? id with
    | none => exact .missing
    | some b =>
      refine .kept (fun hact => ?_) ?_
      · dsimp only at hact
        split_ifs at hact
        · simp [Belief.active] at hact
        · exact hact
      · dsimp only
        split_ifs <;> rfl
  · exact (handle_after htype hq hs id).row

theorem Row.active (hr : ∀ id, Row (textFor h evt id) (p.beliefs.find? id) (q.beliefs.find? id))
    {b : Belief} (hb : b ∈ q.beliefs.rows) (hact : b.active) :
    (∃ c ∈ p.beliefs.rows, c.active ∧ c.id = b.id ∧ c.statement = b.statement) ∨
      textFor h evt b.id = some b.statement := by
  have hrow := hr b.id
  rw [find?_eq_some.mpr ⟨hb, rfl⟩] at hrow
  cases htext : textFor h evt b.id with
  | none =>
    rw [htext] at hrow
    generalize hfind : p.beliefs.find? b.id = o at hrow
    cases hrow with
    | new hw => cases hw
    | kept hact' hsame =>
      obtain ⟨hc, hid⟩ := find?_eq_some.mp hfind
      exact .inl ⟨_, hc, hact' hact, hid, hsame.symm⟩
  | some t =>
    rw [htext] at hrow
    generalize p.beliefs.find? b.id = o at hrow
    cases hrow with
    | new hw => exact .inr hw
    | kept _ hsame => exact .inr (congrArg some hsame.symm)

/-! ### What admission has compared -/

theorem beliefUpsert_text_views (float64 : Text → Option Rat) :
    Views (BeliefUpsertPayload.fields float64) BeliefTextPayload.fields fun w =>
      ⟨w.id, w.statement, w.content⟩ where
  names := of_decide_eq_true rfl
  shared := by simp [BeliefUpsertPayload.fields, BeliefTextPayload.fields, field]
  other := by simp [BeliefUpsertPayload.fields, BeliefTextPayload.fields, field]
  folded := (beliefUpsert_views float64).folded

theorem admission_text_views : Views AdmissionPayload.fields BeliefTextPayload.fields
    fun w => ⟨w.id, w.statement, w.content⟩ where
  names := by decide
  shared := by simp [AdmissionPayload.fields, BeliefTextPayload.fields, field]
  other := by simp [AdmissionPayload.fields, BeliefTextPayload.fields, field, -Bool.exists_bool,
    -Bool.forall_bool]
  folded := admission_views.folded

theorem admission_text {w : AdmissionPayload} (hw : readAdmission evt.payload = some w)
    (htype : EventType.ofBytes? evt.type = some type) (htext : textFor h evt id = some t) :
    w.id = id ∧ beliefText type w.statement w.content = t := by
  rw [textFor] at htext
  split_ifs at htext with hid
  obtain ⟨⟨id', refs⟩, hwritten, rfl⟩ := map_eq_some_iff.mp hid
  obtain ⟨content, hr⟩ := readWritten_of_writtenBelief hwritten
  have ha : readWritten evt.payload = some ⟨w.id, w.content, w.originRefs⟩ :=
    unmarshal_view admission_views hw
  refine ⟨congrArg WrittenPayload.id (some_inj.mp (ha.symm.trans hr)), ?_⟩
  rw [writtenText, htype] at htext
  split at htext
  · rename_i hup
    cases hup
    obtain ⟨u, hu, rfl⟩ := map_eq_some_iff.mp htext
    have hsame :=
      (unmarshal_view admission_text_views hw).symm.trans (unmarshal_view (beliefUpsert_text_views _) hu)
    obtain ⟨-, hstatement, hcontent⟩ := BeliefTextPayload.mk.inj (some_inj.mp hsame)
    rw [hstatement, hcontent]
  · rename_i hstyle
    cases hstyle
    obtain ⟨u, hu, rfl⟩ := map_eq_some_iff.mp htext
    have hsame := ha.symm.trans (unmarshal_view (workingStyle_views _) hu)
    exact congrArg WrittenPayload.content (some_inj.mp hsame)
  · cases htext

theorem accept_text (hq : accept h p a = .ok q) (htext : textFor h a.event id = some t) :
    (∀ b ∈ p.beliefs.rows, b.active →
        (b.id = id ↔ normalizedBeliefStatement h b.statement = normalizedBeliefStatement h t)) ∧
      ∀ b ∈ p.beliefs.rows, b.id = id → id ≠ [] → b.ring = 2 → t = b.statement := by
  obtain ⟨hv, hq⟩ := accept_eq_ok hq
  obtain ⟨type, ledger, htype, hq⟩ := materializeLocked_eq_ok hq
  have hadm := validateEvent_eq_ok htype hv
  have ht : isBeliefText type := by
    by_contra ht
    simp [textFor, writtenId, writtenBelief_eq_none htype (by simpa using ht)] at htext
  have hbelief := hadm.belief
  have hring := hadm.ring2Text
  simp only [validateBeliefAdmissionLocked, ht, Bool.not_true, Bool.false_eq_true, if_false, bind_eq_ok,
    orDeny_eq_ok] at hbelief
  obtain ⟨w, hw, _, -, _, -, _, -, _, -, _, -, _, hall, -⟩ := hbelief
  have hne : t ≠ [] := by
    obtain ⟨b, refs, hfresh, -, hwritten, -⟩ := handle_belief htype ht hq
    rw [textFor, hwritten] at htext
    split_ifs at htext
    exact some_inj.mp htext ▸ hfresh.statement
  obtain ⟨rfl, rfl⟩ := admission_text hw htype htext
  -- the check of each candidate gives the first, the guard of ring 2 the second
  refine ⟨fun b hb hact => ?_, fun b hb hid hid' hring2 => ?_⟩
  · have hcheck := forM_eq_ok.mp hall b (mem_filter.mpr ⟨hb, hact⟩)
    rw [checkCandidate] at hcheck
    by_cases hid : b.id = w.id
    · rw [if_pos hid, allow_eq_ok] at hcheck
      exact iff_of_true hid hcheck
    · simp only [if_neg hid, bind_eq_ok, allow_eq_ok] at hcheck
      exact iff_of_false hid hcheck.choose_spec.1
  · have htextRead : readBeliefText a.event.payload = some ⟨w.id, w.statement, w.content⟩ :=
      unmarshal_view admission_text_views hw
    have hfind : p.beliefs.find? w.id = some b := find?_eq_some.mpr ⟨hb, hid⟩
    simp only [validateRing2TextLocked, ht, Bool.not_true, Bool.false_eq_true, if_false, htextRead,
      if_neg hid', hfind, allow_eq_ok] at hring
    by_contra hother
    exact hring ⟨hring2, hne, hother⟩

/-! ### Histories -/

theorem accept_sayOnce (hp : SayOnce h p) (hq : accept h p a = .ok q) : SayOnce h q := by
  intro b hb c hc hact hact' hnorm
  refine eq_of_key_eq hb hc ?_
  rcases Row.active (accept_row hq) hb hact with ⟨b₀, hb₀, hb₁, hbid, hbtext⟩ | hbtext
  · rcases Row.active (accept_row hq) hc hact' with ⟨c₀, hc₀, hc₁, hcid, hctext⟩ | hctext
    · rw [← hbtext, ← hctext] at hnorm
      rw [← hbid, ← hcid, hp b₀ hb₀ c₀ hc₀ hb₁ hc₁ hnorm]
    · rw [← hbtext] at hnorm
      exact hbid.symm.trans (((accept_text hq hctext).1 b₀ hb₀ hb₁).mpr hnorm)
  · rcases Row.active (accept_row hq) hc hact' with ⟨c₀, hc₀, hc₁, hcid, hctext⟩ | hctext
    · rw [← hctext] at hnorm
      exact (((accept_text hq hbtext).1 c₀ hc₀ hc₁).mpr hnorm.symm).symm.trans hcid
    · rw [textFor] at hbtext hctext
      split_ifs at hbtext with hid
      split_ifs at hctext with hid'
      exact some_inj.mp (hid.symm.trans hid')

theorem accept_words (hq : accept h p a = .ok q) {b : Belief} (hb : b ∈ p.beliefs.rows) :
    ∃ c ∈ q.beliefs.rows, c.id = b.id ∧ c.statement = (textFor h a.event b.id).getD b.statement := by
  have hrow := accept_row hq b.id
  rw [find?_eq_some.mpr ⟨hb, rfl⟩] at hrow
  generalize hfind : q.beliefs.find? b.id = o at hrow
  cases hrow with
  | kept _ htext =>
    obtain ⟨hc, hid⟩ := find?_eq_some.mp hfind
    exact ⟨_, hc, hid, htext⟩

/-- In a history no two active beliefs ever say the same; and what was in ring 2 keeps its
words exactly when no event gives it others after it has left ring 2, or under the empty id. -/
theorem beliefs_keep_words_iff (h : Host) (arrivals : List Arrival) :
    (∀ before later p q, before ++ later <+: arrivals → accepted h before = .ok p →
        accepted h (before ++ later) = .ok q → SayOnce h q ∧ KeepsWords p q) ↔
      ∀ before later a p q r, before ++ later ++ [a] <+: arrivals → accepted h before = .ok p →
        accepted h (before ++ later) = .ok q → accept h q a = .ok r →
          ∀ b ∈ p.beliefs.rows, b.ring = 2 → ¬ RewordsUnseen h q a.event b.id := by
  constructor
  · rintro hall before later a p q r hpre hp hq hr b hb hring ⟨c, hc, hid, -, t, htext, hne⟩
    obtain ⟨d, hd, hdid, hdtext⟩ := (hall before later p q ((prefix_append _ _).trans hpre) hp hq).2
      b hb hring
    obtain rfl := eq_of_key_eq hc hd (hid.trans hdid.symm)
    rw [append_assoc] at hpre
    have hr' : accepted h (before ++ (later ++ [a])) = .ok r := by
      rw [← append_assoc]
      exact accepted_concat.mpr ⟨q, hq, hr⟩
    obtain ⟨e, he, heid, hetext⟩ := (hall before (later ++ [a]) p r hpre hp hr').2 b hb hring
    obtain ⟨f, hf, hfid, hftext⟩ := accept_words hr hc
    obtain rfl := eq_of_key_eq he hf (heid.trans (hid.symm.trans hfid.symm))
    rw [hid, htext] at hftext
    exact hne (hftext.symm.trans (hetext.trans hdtext.symm))
  · intro hseen before later p q hpre hp hq
    have honce : SayOnce h q :=
      foldlM_ok_invariant hq (fun b hb => absurd hb not_mem_nil) fun _ _ _ _ => accept_sayOnce
    refine ⟨honce, fun b hb hring => ?_⟩
    clear honce
    -- on the arrivals since `p`, from the last one back
    induction later using List.reverseRecOn generalizing q with
    | nil =>
      rw [append_nil, hp] at hq
      cases hq
      exact ⟨b, hb, rfl, rfl⟩
    | append_singleton later a ih =>
      rw [← append_assoc] at hq hpre
      obtain ⟨r, hr, hq⟩ := accepted_concat.mp hq
      obtain ⟨c, hc, hid, hctext⟩ := ih r ((prefix_append _ _).trans hpre) hr
      obtain ⟨d, hd, hdid, hdtext⟩ := accept_words hq hc
      refine ⟨d, hd, hdid.trans hid, hdtext.trans ?_⟩
      cases htext : textFor h a.event c.id with
      | none => exact hctext
      | some t =>
        rw [← hctext]
        by_contra hne
        by_cases hguard : c.id = [] ∨ c.ring ≠ 2
        · exact hseen before later a p r q hpre hp hr hq b hb hring
            ⟨c, hc, hid, hid ▸ hguard, t, hid ▸ htext, hne⟩
        · rw [not_or, not_ne_iff] at hguard
          exact hne ((accept_text hq htext).2 c hc rfl hguard.1 hguard.2)

/-- A belief without an id is placed in ring 2 and written again with a space more. -/
def respelled : List Arrival :=
  [experienceArrival 1 "e" "x", beliefArrival 2 "\"statement\":\"s\",\"ring\":2",
    beliefArrival 3 "\"statement\":\"s \""]

theorem ring2_words_respelled :
    ∃ p q, accepted plainHost (respelled.take 2) = .ok p ∧ accepted plainHost respelled = .ok q ∧
      p.beliefs.rows.map (fun b => (b.id, b.ring, b.statement)) = [([], 2, "s".toList)] ∧
      q.beliefs.rows.map (fun b => (b.id, b.ring, b.statement)) = [([], 2, "s ".toList)] := by
  obtain ⟨p, hp, hbefore⟩ : ∃ p, accepted plainHost (respelled.take 2) = .ok p ∧
      p.beliefs.rows.map (fun b => (b.id, b.ring, b.statement)) = [([], 2, "s".toList)] :=
    exists_ok (by decide +kernel)
  obtain ⟨q, hq, hafter⟩ : ∃ q, accepted plainHost respelled = .ok q ∧
      q.beliefs.rows.map (fun b => (b.id, b.ring, b.statement)) = [([], 2, "s ".toList)] :=
    exists_ok (by decide +kernel)
  exact ⟨p, q, hp, hq, hbefore, hafter⟩

end AiiOs.Store
