import AiiOs.Store.Evidence

/-! Experiences over whole histories. A run takes in raw experiences only and leaves them
spent; the event that creates an experience writes the whole row, also over one that is
there, and that is the one way in which words change or a spent experience is raw again. -/

namespace AiiOs.Store
open Lib Lib.Json AiiOs.Ledger List Table

variable {h : Host} {p q r : Projection} {type : EventType} {evt : Event} {id : Text} {inputs : List Text}

def consumed (evt : Event) : List Text := match EventType.ofBytes? evt.type with
  | some .consolidationRun | some .dreamRun => (readFacilityRun evt.payload).elim [] (·.inputs)
  | _ => []

def Spent (p : Projection) (id : Text) : Prop := ∃ x, p.experiences.find? id = some x ∧ x.raw = false

def Lasts (p q : Projection) : Prop := ∀ id x, p.experiences.find? id = some x →
    ∃ y, q.experiences.find? id = some y ∧ y.content = x.content ∧ (x.raw = false → y.raw = false)

/-- The event writes an experience that is there in other words, or makes it raw again. -/
def Rewrites (p : Projection) (evt : Event) : Prop :=
  EventType.ofBytes? evt.type = some .experienceCreate ∧
    ∃ w x, readExperience evt.payload = some w ∧ p.experiences.find? w.id = some x ∧
      (w.content ≠ x.content ∨ x.raw = false ∧ startsRaw w)

theorem Lasts.of_eq (h : q.experiences = p.experiences) : Lasts p q := by
  intro id x hx
  exact ⟨x, h ▸ hx, rfl, fun h => h⟩

theorem Lasts.trans (h : Lasts p q) (h' : Lasts q r) : Lasts p r := by
  intro id x hx
  obtain ⟨y, hy, hcontent, hraw⟩ := h id x hx
  obtain ⟨z, hz, hcontent', hraw'⟩ := h' id y hy
  exact ⟨z, hz, hcontent'.trans hcontent, fun h => hraw' (hraw h)⟩

theorem Lasts.spent (h : Lasts p q) (hs : Spent p id) : Spent q id := by
  obtain ⟨x, hx, hraw⟩ := hs
  obtain ⟨y, hy, -, hraw'⟩ := h id x hx
  exact ⟨y, hy, hraw' hraw⟩

/-! ### A run -/

theorem consumeInputs_find? (h : consumeInputs type inputs p = .ok q) :
    (∀ id ∈ inputs, p.experiences.Holds id) ∧ ∀ id, q.experiences.find? id =
      (p.experiences.find? id).map fun x => if id ∈ inputs then { x with raw := false } else x := by
  induction inputs generalizing p with
  | nil =>
    cases h
    simp
  | cons i inputs ih =>
    simp only [consumeInputs, bind_eq_ok, require_eq_ok] at h
    obtain ⟨_, hheld, h⟩ := h
    obtain ⟨hall, hfind⟩ := ih h
    refine ⟨forall_mem_cons.mpr ⟨hheld, fun id hid => by simpa using hall id hid⟩, ?_⟩
    intro id
    rw [hfind id, find?_update]
    cases hx : p.experiences.find? id with
    | none => rfl
    | some x =>
      have hxid : x.id = id := (find?_eq_some.mp hx).2
      by_cases hi : id = i <;> by_cases hmem : id ∈ inputs <;> simp [hxid, hi]

theorem materializeFacilityRun_eq_ok (h : materializeFacilityRun type evt p = .ok q) :
    ∃ w, readFacilityRun evt.payload = some w ∧ w.inputs ≠ [] ∧
      runOutputsPrecedeLocked type evt.seq p w.outputs = .ok () ∧
      (∀ id ∈ w.inputs, p.experiences.Holds id) ∧ ∀ id, q.experiences.find? id =
        (p.experiences.find? id).map fun x => if id ∈ w.inputs then { x with raw := false } else x := by
  simp only [materializeFacilityRun, bind_eq_ok, orRefuse_eq_ok, require_eq_ok] at h
  obtain ⟨w, hw, _, hne, _, houtputs, r, hr, h⟩ := h
  obtain ⟨hheld, hfind⟩ := consumeInputs_find? hr
  refine ⟨w, hw, hne, houtputs, hheld, fun id => ?_⟩
  have hsame := stampConfirmed_invariant (P := (·.experiences = r.experiences)) (fun _ _ hr => hr) h rfl
  rw [hsame, hfind]

theorem runOutputsPrecedeLocked_eq_ok {seq : Nat} {outputs : List Nat} :
    runOutputsPrecedeLocked type seq p outputs = .ok () ↔ ∀ n ∈ outputs, n < seq ∧ p.ledger.Holds n := by
  induction outputs with
  | nil => simp [runOutputsPrecedeLocked]
  | cons n outputs ih =>
    simp only [runOutputsPrecedeLocked, bind_eq_ok, require_eq_ok, ih, forall_mem_cons,
      exists_const, and_assoc]

theorem inputsRaw_spec {seen : List Text} {b : Bool} (h : inputsRaw p type seen inputs = .ok b)
    (hheld : ∀ id ∈ inputs, p.experiences.Holds id) :
    inputs.Nodup ∧ ∀ id ∈ inputs, id ∉ seen ∧ ¬ Spent p id := by
  induction inputs generalizing seen with
  | nil => simp
  | cons i inputs ih =>
    rw [forall_mem_cons] at hheld
    rw [inputsRaw] at h
    cases hx : p.experiences.find? i with
    | none => exact absurd hheld.1 (Table.find?_eq_none.mp hx)
    | some x =>
      simp only [hx, bind_eq_ok, allow_eq_ok] at h
      obtain ⟨_, ⟨hraw, hseen⟩, h⟩ := h
      obtain ⟨hnodup, hall⟩ := ih h hheld.2
      refine ⟨nodup_cons.mpr ⟨fun hi => (hall i hi).1 mem_cons_self, hnodup⟩, ?_⟩
      rw [forall_mem_cons]
      refine ⟨⟨hseen, ?_⟩, fun id hid => ⟨fun hs => (hall id hid).1 (mem_cons_of_mem _ hs), (hall id hid).2⟩⟩
      rintro ⟨y, hy, hspent⟩
      cases hx.symm.trans hy
      rw [hraw] at hspent
      cases hspent

theorem preflight_outputs {now : Bytes} {w : FacilityRunPayload} (hw : readFacilityRun evt.payload = some w)
    (hrun : handle h type = materializeFacilityRun type) (htype : EventType.ofBytes? evt.type = some type)
    (hq : materializeLocked h (candidate now p evt.type evt.ring evt.payload) p = .ok q) :
    runOutputsPrecedeLocked type (maxSeq p.ledger + 1) p w.outputs = .ok () := by
  simp only [materializeLocked, mirrorInsert, bind_eq_ok, pure_eq_ok, orRefuse_eq_ok] at hq
  obtain ⟨_, ⟨_, -, ledger, hins, rfl⟩, type', htype', hq⟩ := hq
  obtain rfl : type = type' := Option.some_inj.mp (htype.symm.trans htype')
  rw [hrun] at hq
  obtain ⟨w', hw', -, houtputs, -⟩ := materializeFacilityRun_eq_ok hq
  cases hw.symm.trans hw'
  rw [runOutputsPrecedeLocked_eq_ok] at houtputs ⊢
  obtain ⟨hfree, rfl⟩ := insert?_eq_some.mp hins
  intro n hn
  obtain ⟨hlt, hheld⟩ := houtputs n hn
  refine ⟨hlt, ((holds_push hfree).mp hheld).resolve_right fun he => ?_⟩
  exact absurd he (ne_of_lt hlt)

/-! ### One event -/

theorem handle_experiences (htype : EventType.ofBytes? evt.type = some type)
    (hq : handle h type evt p = .ok q) (hc : type ≠ .experienceCreate) (hr : type ≠ .consolidationRun)
    (hd : type ≠ .dreamRun) : q.experiences = p.experiences := by
  by_cases hplain : isPlain type
  · exact (handle_untouched hq hplain).experiences
  by_cases ht : isBeliefText type
  · obtain ⟨b, refs, -, -, -, hq⟩ := handle_belief htype ht hq
    refine materializeBeliefOriginsLocked_invariant
      (P := (·.experiences = p.experiences)) hq rfl fun i origin r r' hr h => ?_
    rcases insertOrigin_cases h with rfl | ⟨e, hfree, -, -, -, -, rfl⟩ <;> exact hr
  · cases type with
    | beliefPromote =>
      simp only [handle, materializeBeliefPromote, bind_eq_ok, pure_eq_ok] at hq
      obtain ⟨_, -, _, -, _, -, rfl⟩ := hq
      rfl
    | beliefArchive =>
      simp only [handle, materializeBeliefArchive, bind_eq_ok, pure_eq_ok] at hq
      obtain ⟨_, -, _, -, rfl⟩ := hq
      rfl
    | beliefSupersede =>
      simp only [handle, materializeBeliefSupersede, bind_eq_ok, pure_eq_ok] at hq
      obtain ⟨_, -, _, -, _, -, rfl⟩ := hq
      rfl
    | edgeCreate =>
      obtain ⟨e, hfree, -, rfl⟩ := materializeEdgeLocked_eq_ok hq
      rfl
    | edgeArchive =>
      obtain ⟨w, e, -, -, rfl⟩ := materializeEdgeArchive_eq_ok hq
      rfl
    | experienceCreate => exact absurd rfl hc
    | consolidationRun => exact absurd rfl hr
    | dreamRun => exact absurd rfl hd
    | _ => first | exact absurd rfl hplain | exact absurd rfl ht

/-- What an admitted event does to the experiences: it creates one, it takes some in that
are raw, or it leaves them all. -/
inductive Effect (p q : Projection) (evt : Event) : Prop
  | create {w : ExperiencePayload} {x : Experience}
    (htype : EventType.ofBytes? evt.type = some .experienceCreate)
    (hw : readExperience evt.payload = some w) (hx : Wrote w x)
    (hq : q.experiences = p.experiences.replace x) (hc : consumed evt = [])
  | run (hnodup : (consumed evt).Nodup) (hraw : ∀ id ∈ consumed evt, p.experiences.Holds id ∧ ¬ Spent p id)
    (htype : EventType.ofBytes? evt.type ≠ some .experienceCreate)
    (hq : ∀ id, q.experiences.find? id =
      (p.experiences.find? id).map fun x => if id ∈ consumed evt then { x with raw := false } else x)

variable {a : Arrival}

section
variable (hq : accept h p a = .ok q)
include hq

theorem accept_effect : Effect p q a.event := by
  obtain ⟨hv, hq⟩ := accept_eq_ok hq
  obtain ⟨type, ledger, htype, hq⟩ := materializeLocked_eq_ok hq
  -- the two kinds of run differ in name only
  have hrun (hhandle : ∀ h, handle h type = materializeFacilityRun type)
      (hlive : ∀ h p seq payload, validateLiveOnlyLocked h p type seq payload =
        validateRunInputs p type seq payload)
      (hc : consumed a.event = (readFacilityRun a.event.payload).elim [] (·.inputs))
      (hne : type ≠ .experienceCreate) : Effect p q a.event := by
    rw [hhandle] at hq
    obtain ⟨w, hw, hinputs, -, hheld, hfind⟩ := materializeFacilityRun_eq_ok hq
    have hadm := validateEvent_eq_ok htype hv
    obtain ⟨r, hr, -⟩ := hadm.preflight
    have houtputs := preflight_outputs hw (hhandle _) htype hr
    have hin := hadm.liveOnly
    rw [hlive, validateRunInputs, hw] at hin
    simp only [hinputs, houtputs, Except.toBool, Bool.true_eq_false, or_self, if_false, bind_eq_ok] at hin
    obtain ⟨b, hb, -⟩ := hin
    obtain ⟨hnodup, hall⟩ := inputsRaw_spec hb hheld
    rw [hw] at hc
    refine .run (hc ▸ hnodup) (hc ▸ fun id hid => ⟨hheld id hid, (hall id hid).2⟩) ?_ (hc ▸ hfind)
    rw [htype]
    exact fun h => hne (Option.some_inj.mp h)
  by_cases hr : type = .consolidationRun
  · subst hr
    exact hrun (fun _ => rfl) (fun _ _ _ _ => rfl) (by simp only [consumed, htype]) (by decide)
  by_cases hd : type = .dreamRun
  · subst hd
    exact hrun (fun _ => rfl) (fun _ _ _ _ => rfl) (by simp only [consumed, htype]) (by decide)
  have hc : consumed a.event = [] := by
    rw [consumed, htype]
    cases type <;> first | rfl | exact absurd rfl hr | exact absurd rfl hd
  by_cases hx : type = .experienceCreate
  · subst hx
    obtain ⟨w, x, hw, hx, rfl⟩ := materializeExperience_eq_ok hq
    exact .create htype hw hx rfl hc
  · have hsame := handle_experiences htype hq hx hr hd
    refine .run (hc ▸ nodup_nil) (by simp [hc]) ?_ fun id => ?_
    · rw [htype]
      exact fun h => hx (Option.some_inj.mp h)
    · rw [hsame]
      simp [hc]

theorem accept_lasts_iff : Lasts p q ↔ ¬ Rewrites p a.event := by
  cases accept_effect hq with
  | create htype hw hx hq hc =>
    rename_i w x
    constructor
    · rintro hlasts ⟨-, w', y, hw', hy, hne⟩
      cases hw.symm.trans hw'
      obtain ⟨z, hz, hcontent, hraw⟩ := hlasts w.id y hy
      rw [hq, find?_replace, if_pos hx.id.symm] at hz
      cases hz
      rcases hne with hne | ⟨hspent, hstart⟩
      · exact hne (hx.content.symm.trans hcontent)
      · have := hraw hspent
        rw [hx.raw, hstart] at this
        cases this
    · intro hno id y hy
      rw [hq, find?_replace]
      by_cases hid : id = x.id
      · subst hid
        rw [if_pos rfl]
        refine ⟨x, rfl, ?_, fun hspent => ?_⟩
        · by_contra hne
          exact hno ⟨htype, w, y, hw, hx.id ▸ hy, .inl fun h => hne (hx.content.trans h)⟩
        · by_contra hraw
          refine hno ⟨htype, w, y, hw, hx.id ▸ hy, .inr ⟨hspent, ?_⟩⟩
          rw [← hx.raw]
          exact Bool.of_not_eq_false hraw
      · rw [if_neg hid]
        exact ⟨y, hy, rfl, fun h => h⟩
  | run hnodup hraw htype hq =>
    refine iff_of_true (fun id x hx => ?_) fun h => htype h.1
    rw [hq, hx]
    refine ⟨_, rfl, ?_, fun h => ?_⟩ <;> split_ifs
    · rfl
    · rfl
    · rfl
    · exact h

theorem accept_consumed : (consumed a.event).Nodup ∧ ∀ id ∈ consumed a.event, ¬ Spent p id ∧ Spent q id := by
  cases accept_effect hq with
  | create htype hw hx hq hc =>
    rw [hc]
    exact ⟨nodup_nil, fun id hid => absurd hid not_mem_nil⟩
  | run hnodup hraw htype hq =>
    refine ⟨hnodup, fun id hid => ⟨(hraw id hid).2, ?_⟩⟩
    obtain ⟨x, hx, rfl⟩ := Table.holds_iff.mp (hraw id hid).1
    have hfind := hq x.id
    rw [find?_eq_some.mpr ⟨hx, rfl⟩, Option.map_some, if_pos hid] at hfind
    exact ⟨_, hfind, rfl⟩

end

/-! ### Histories -/

section
variable {arrivals before later : List Arrival}

def WrittenOnce (h : Host) (arrivals : List Arrival) : Prop :=
  ∀ before a p q, before ++ [a] <+: arrivals → accepted h before = .ok p → accept h p a = .ok q →
    ¬ Rewrites p a.event

theorem WrittenOnce.lasts (ho : WrittenOnce h arrivals) (hpre : before ++ later <+: arrivals)
    (hp : accepted h before = .ok p) (hr : accepted h (before ++ later) = .ok r) : Lasts p r := by
  induction later using List.reverseRecOn generalizing r with
  | nil =>
    rw [append_nil, hp] at hr
    cases hr
    exact .of_eq rfl
  | append_singleton later a ih =>
    rw [← append_assoc] at hr hpre
    obtain ⟨q, hq, hr⟩ := accepted_concat.mp hr
    refine (ih ((prefix_append _ _).trans hpre) hq).trans ?_
    exact (accept_lasts_iff hr).mpr (ho _ a q r hpre hq hr)

/-- What a history has taken in it took in once, and it is spent. -/
theorem WrittenOnce.consumed (ho : WrittenOnce h arrivals) (hpre : before <+: arrivals)
    (hr : accepted h before = .ok r) :
    (before.flatMap fun a => consumed a.event).Nodup ∧ ∀ id ∈ before.flatMap
      fun a => consumed a.event, Spent r id := by
  induction before using List.reverseRecOn generalizing r with
  | nil => simp
  | append_singleton before a ih =>
    obtain ⟨q, hq, hr⟩ := accepted_concat.mp hr
    obtain ⟨hnodup, hspent⟩ := ih ((prefix_append _ _).trans hpre) hq
    obtain ⟨hnow, hraw⟩ := accept_consumed hr
    have hlasts := (accept_lasts_iff hr).mpr (ho _ a q r hpre hq hr)
    simp only [flatMap_append, flatMap_singleton]
    refine ⟨nodup_append'.mpr ⟨hnodup, hnow, fun id hid hid' => ?_⟩, fun id hid => ?_⟩
    · exact (hraw id hid').1 (hspent id hid)
    · rcases mem_append.mp hid with hid | hid
      · exact hlasts.spent (hspent id hid)
      · exact (hraw id hid).2

end

/-- In a history the experiences keep their words, stay spent and are taken in once exactly
when none of its events writes an experience again, in other words or raw. -/
theorem experiences_consumed_once_iff (h : Host) (arrivals : List Arrival) :
    (∀ before later p r, before ++ later <+: arrivals → accepted h before = .ok p →
        accepted h (before ++ later) = .ok r →
          Lasts p r ∧ ((before ++ later).flatMap fun a => consumed a.event).Nodup) ↔
      ∀ before a p q, before ++ [a] <+: arrivals → accepted h before = .ok p →
        accept h p a = .ok q → ¬ Rewrites p a.event := by
  constructor
  · intro hall before a p q hpre hp hq
    exact (accept_lasts_iff hq).mp (hall before [a] p q hpre hp (accepted_concat.mpr ⟨p, hp, hq⟩)).1
  · intro ho before later p r hpre hp hr
    exact ⟨WrittenOnce.lasts ho hpre hp hr, (WrittenOnce.consumed ho hpre hr).1⟩

def writtenAgain : List Arrival :=
  [experienceArrival 1 "e" "x",
    plainArrival 2 "consolidation.run" "\x7b\"inputs\":[\"e\"]\x7d",
    experienceArrival 3 "e" "y",
    plainArrival 4 "dream.run" "\x7b\"inputs\":[\"e\"]\x7d"]

theorem writtenAgain_consumed_twice : ∃ p q r, accepted plainHost (writtenAgain.take 2) = .ok p ∧
      accepted plainHost (writtenAgain.take 3) = .ok q ∧ accepted plainHost writtenAgain = .ok r ∧
      p.experiences.rows.map (fun x => (x.id, x.content, x.raw)) = [("e".toList, "x".toList, false)] ∧
      q.experiences.rows.map (fun x => (x.id, x.content, x.raw)) = [("e".toList, "y".toList, true)] ∧
      (writtenAgain.flatMap fun a => consumed a.event) = ["e".toList, "e".toList] := by
  obtain ⟨p, hp, hspent⟩ : ∃ p, accepted plainHost (writtenAgain.take 2) = .ok p ∧
      p.experiences.rows.map (fun x => (x.id, x.content, x.raw)) = [("e".toList, "x".toList, false)] :=
    exists_ok (by decide +kernel)
  obtain ⟨q, hq, hraw⟩ : ∃ q, accepted plainHost (writtenAgain.take 3) = .ok q ∧
      q.experiences.rows.map (fun x => (x.id, x.content, x.raw)) = [("e".toList, "y".toList, true)] :=
    exists_ok (by decide +kernel)
  obtain ⟨r, hr, -⟩ := exists_ok (c := fun _ => True)
    (show (accepted plainHost writtenAgain).toOption.any _ by decide +kernel)
  exact ⟨p, q, r, hp, hq, hr, hspent, hraw, by decide +kernel⟩

end AiiOs.Store
