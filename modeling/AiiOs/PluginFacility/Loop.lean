import AiiOs.PluginFacility.Kept

/-! The executor's loop: between commands every lease that holds something is in the
slot or retiring, exactly when no redirect lost one. -/

namespace AiiOs.PluginFacility
open Lib List Option Prog

section
variable {e e' : Executor} {g : Generation} {L : Prop} {S : Generation → Prop} {hand : List Generation}
  {F : Empty → Executor → Prop}

theorem After.two (h : After L hand e) (hL : ¬ L) : Two e := by
  obtain ⟨S, hS, hs⟩ := h
  exact (hS hL).two hs.within

theorem After.lift {ε α : Type} {p : Exec ε α} {E : ε → Executor → Prop} {hand' : List Generation}
    (h : After L hand e)
    (hp : ∀ S, Sound L S hand e → p.wp (Within S) (fun _ => Sound L S hand') (fun _ => Sound L S hand') e)
    (hE : ∀ x t, After L hand' t → E x t) :
    p.wp (fun t => ¬ L → Two t) (fun _ => After L hand') E e := by
  obtain ⟨S, hS, hs⟩ := h
  exact wp_mono (hp S hs) (fun t ht hL => (hS hL).two ht) (fun _ _ ht => ⟨S, hS, ht⟩)
    (fun x t ht => hE x t ⟨S, hS, ht⟩)

theorem Sound.begin (h : Sound L S [] e) {c : Command} (hc : e.pending = some c) :
    Standing L S c.gen e.active (e.setPending none) := by
  obtain ⟨hlt, hu⟩ := h.fresh.pending c hc
  refine ⟨⟨⟨fun q hq => ?_, nofun⟩, fun q hq => ?_, h.within, fun hl q hh => ?_, fun q hq => ?_,
    fun p hp => ?_, h.since⟩, ⟨hu.retiring, hu.released⟩, rfl, hu.active⟩
  · have hq := h.fresh.later q hq
    exact ⟨⟨hq.retiring, hq.released⟩, hq.empty, hq.active⟩
  · cases mem_singleton.mp hq
    exact ⟨⟨hlt, nofun⟩, fun hl => hu.empty (h.gone _ hl).holds⟩
  · exact (h.kept hl q hh).imp_right fun hk => hk.imp_right nofun
  · have ho := (h.slot q hq).resolve_left nofun
    exact .inr ⟨ho.retiring, ho.released⟩
  · have hgone := h.gone p hp
    exact ⟨⟨hgone.retiring, hgone.released⟩, hgone.holds, hgone.active⟩

theorem Sound.setPending (h : Sound L S [] e) (hc : e.pending = none) : Sound L S [] (e.setPending none) :=
  h.quiet (quiet_of_same rfl rfl rfl rfl hc.symm (fun _ => rfl) fun _ => rfl)

theorem Standing.dropped {x : Option Generation} (h : Standing L S g x e) : Sound L S [] (e.release g 0) := by
  refine (h.sound.release (.inl mem_cons_self) 0).letGo (fun _ hh => absurd ?_ hh) fun ha => ?_
  · rw [Executor.release, leases_setLease, if_pos rfl]
    rfl
  · exact absurd (h.active.symm.trans ha) h.apart

section
variable {c : Command} {x : Option Generation}

section
variable (h : Standing L S c.gen x e) (hempty : ¬ Holds e c.gen) (hS : ¬ L → Pair S) (hL : e.lost = none ∨ L)
include h hempty hS hL

theorem Standing.perform_wp : (perform c).wp (fun t => ¬ L → Two t) (fun _ => After L []) F e := by
  have hsound : Sound L S [] e :=
    h.sound.letGo (fun _ hh => absurd hh hempty) fun ha => absurd (h.active.symm.trans ha) h.apart
  have hafter : After L [] e := ⟨S, hS, hsound⟩
  rw [perform]
  cases c.kind
  case deactivate =>
    rw [wp_bind, wp_attempt]
    exact hafter.lift (fun _ hs => hs.deactivate_wp) fun _ _ h => h
  case readmission =>
    rw [wp_bind, wp_attempt]
    exact hafter.lift (fun _ hs => hs.readmit_wp) fun _ _ h => h
  case activate | update =>
    rw [wp_bind, wp_attempt]
    refine wp_mono (h.activate_wp hS hL) (fun _ h => h) (fun _ _ h => h) fun _ t ht => ?_
    exact ht.lift (fun _ hs => hs.recover_wp) (·.elim)

theorem Standing.run_wp : (run c).wp (fun t => ¬ L → Two t) (fun _ => After L []) F e := by
  have htwo : ∀ {t}, Standing L S c.gen x t → ¬ L → Two t := fun ht hL => (hS hL).two ht.sound.within
  rw [run, wp_bind]
  refine turn_rule h.sound.fresh (fun t ht => htwo (h.quiet ht)) fun a t ht => ?_
  have hs := h.quiet ht
  rw [wp_bind, wp_read]
  split_ifs
  · exact ⟨fun hL => (hS hL).two hs.dropped.within, S, hS, hs.dropped⟩
  · have hrunning := hs.quiet (quiet_setRunning (some ⟨c.gen, false, false⟩))
    simp only [wp_bind, wp_act]
    refine ⟨htwo hrunning, wp_post (hrunning.perform_wp (fun hh => hempty (ht.holds _ hh)) hS (ht.lost ▸ hL))
      fun _ u hu => ?_⟩
    have hdone := hu.quiet (quiet_setRunning none)
    exact ⟨hdone.two, hdone⟩

end

end

theorem After.loopOnce_wp (h : After L [] e) (hL : e.lost = none ∨ L) :
    loopOnce.wp (fun t => ¬ L → Two t) (fun _ => After L []) F e := by
  obtain ⟨S, hS, hs⟩ := h
  rw [loopOnce, wp_bind]
  refine turn_rule hs.fresh (fun t ht hL => (hS hL).two (hs.quiet ht).within) fun a t ht => ?_
  have hst := hs.quiet ht
  rw [wp_bind, wp_read, id, wp_bind, wp_act]
  cases hp : t.pending with
  | none =>
    have hset := hst.setPending hp
    have hafter : After L [] (t.setPending none) := ⟨S, hS, hset⟩
    refine ⟨hafter.two, ?_⟩
    split_ifs
    · exact hafter
    · rw [wp_bind]
      exact hafter.lift (fun _ hs => hs.failedServing_wp) fun x => x.elim
    · rw [wp_bind]
      refine question_rule hset.fresh (fun u hu => (hafter.quiet hu).two) fun b u hu => ?_
      split_ifs
      · have hclosed : After L [] u.close :=
          (hafter.quiet hu).quiet (quiet_other (hset.quiet hu).fresh .close)
        exact ⟨hclosed.two, hclosed⟩
      · exact hafter.quiet hu
  | some c =>
    have hb := hst.begin hp
    refine ⟨fun hL => (hS hL).two hb.sound.within, ?_⟩
    change Prog.wp _ _ _ (if t.closed then _ else _) _
    split_ifs
    · exact ⟨fun hL => (hS hL).two hb.dropped.within, S, hS, hb.dropped⟩
    · rw [wp_bind]
      exact hb.run_wp (hst.fresh.pending c hp).2.empty hS (ht.lost ▸ hL)

/-! ### Shutdown -/

/-- The release of all that was in the slot, or among the first of what was retiring, was
asked for. -/
structure Leaving (L : Prop) (S : Generation → Prop) (d : Executor) (l : List Generation)
    (e : Executor) : Prop where
  sound : Sound L S d.active.toList e
  active : e.active = none
  retiring : e.retiring = d.retiring
  lost : e.lost = d.lost
  released : ∀ g, d.active = some g ∨ g ∈ l → (e.leases g).released

theorem Leaving.retire_wp {d : Executor} {l : List Generation} (h : Leaving L S d l e) (hg : g ∈ d.retiring) :
    (do let e' ← Prog.read id
        if d.active = some g ∨ (e'.leases g).discharged then pure () else releaseLease g : Exec Empty Unit).wp
      (Within S) (fun _ => Leaving L S d (l ++ [g])) F e := by
  have hmore : ∀ {t : Executor}, Sound L S d.active.toList t → t.active = none →
      t.retiring = d.retiring → t.lost = d.lost → (∀ q, (e.leases q).released → (t.leases q).released) →
      (d.active = some g ∨ (t.leases g).released) → Leaving L S d (l ++ [g]) t := by
    intro t hs ha hr hl hkept hg
    refine ⟨hs, ha, hr, hl, fun q hq => ?_⟩
    rcases hq with hq | hq
    · exact hkept q (h.released q (.inl hq))
    · rcases mem_append.mp hq with hq | hq
      · exact hkept q (h.released q (.inr hq))
      · rw [mem_singleton.mp hq]
        exact hg.elim (fun ha => hkept g (h.released g (.inl ha))) id
  rw [wp_bind, wp_read]
  split_ifs with hskip
  · refine hmore h.sound h.active h.retiring h.lost (fun _ hq => hq) (hskip.imp_right fun hd => ?_)
    rw [Lease.discharged, Bool.and_eq_true] at hd
    exact hd.1
  · refine wp_post (h.sound.releaseLease_wp (.inr (h.retiring ▸ hg))) fun _ t ht => ?_
    obtain ⟨hs, hbeside, hretiring, hreleased⟩ := ht
    exact hmore hs (hbeside.active.trans h.active) (hretiring.trans h.retiring) (hbeside.lost.trans h.lost)
      hbeside.released (.inr hreleased)

theorem Sound.shutdown_wp (h : Sound L S [] e) :
    shutdown.wp (Within S) (fun _ => Leaving L S e e.retiring) F e := by
  have hnone : Sound L S e.active.toList (e.setActive none) :=
    (h.setActive (x := none) nofun).congr fun q => by rw [append_nil]
  have hrest : ∀ t, Leaving L S e [] t → (forM e.retiring fun g => do
      let e' ← .read id
      if e.active = some g ∨ (e'.leases g).discharged then pure () else releaseLease g : Exec Empty Unit).wp
        (Within S) (fun _ => Leaving L S e e.retiring) F t := by
    intro t ht
    refine wp_forM ht fun l₁ g l₂ u hl hu => hu.retire_wp ?_
    rw [hl]
    exact mem_append_right _ mem_cons_self
  rw [shutdown, wp_bind, wp_read, id, wp_bind, wp_act]
  refine ⟨hnone.within, ?_⟩
  cases ha : e.active with
  | none =>
    rw [ha] at hnone hrest
    refine hrest _ ⟨ha ▸ hnone, rfl, rfl, rfl, ?_⟩
    rintro g (hg | hg)
    · cases ha.symm.trans hg
    · cases hg
  | some g =>
    have hw := hnone.quiet (quiet_withdraw (g := g))
    rw [wp_bind, wp_act, wp_bind]
    refine ⟨hw.within, wp_post (hw.releaseLease_wp (.inl ?_)) fun _ t ht => ?_⟩
    · exact mem_toList.mpr ha
    · obtain ⟨hs, hbeside, hretiring, hreleased⟩ := ht
      rw [ha] at hrest
      refine hrest t ⟨hs, hbeside.active, hretiring, hbeside.lost, ?_⟩
      rintro q (hq | hq)
      · cases ha.symm.trans hq
        exact hreleased
      · cases hq

/-! ### Between commands -/

/-- The executor before a turn of its loop, or, with `false`, after the last one. -/
inductive Between : Bool → Executor → Prop
  | init : Between true Executor.init
  | other {b : Bool} {e : Executor} (o : Other) : Between b e → Between b (e.other o)
  | turned {b : Bool} {e e' : Executor} : Between true e → Prog.Ends loopOnce e (.ok b) e' → Between b e'

theorem after_init : After False [] Executor.init := by
  have hunheld : ∀ g, Unheld .init g := fun g => ⟨⟨nofun, rfl⟩, fun h => h rfl, nofun⟩
  refine ⟨fun _ => False, fun _ => ⟨0, 0, nofun⟩, ⟨fun g _ => hunheld g, nofun⟩, nofun, fun g hg => ?_,
    fun _ g hg => ?_, nofun, nofun, nofun⟩
  · exact hg rfl
  · exact absurd rfl hg

theorem After.since (h : After L [] e) : After (e.lost ≠ none) [] e := by
  obtain ⟨S, hS, hs⟩ := h
  exact ⟨S, fun hl => hS fun hL => hl (hs.since hL), hs.fresh, hs.begun, hs.within, hs.kept,
    hs.slot, hs.gone, id⟩

theorem Between.after {b : Bool} (h : Between b e) : After (e.lost ≠ none) [] e := by
  induction h with
  | init => exact after_init.since
  | other o _ ih =>
    obtain ⟨S, hS, hs⟩ := ih
    exact .since ⟨S, hS, hs.quiet (quiet_other hs.fresh o)⟩
  | turned _ hends ih =>
    have hloop := ih.loopOnce_wp (F := fun _ _ => True) (Classical.em _)
    exact ((wp_ends hloop hends).1 _ rfl).since

/-- Nothing that holds something is forgotten. -/
structure InCustody (e : Executor) : Prop where
  kept : ∀ g, Holds e g → e.active = some g ∨ g ∈ e.retiring
  two : Two e
  during : ∀ t, Prog.Visits loopOnce e t → Two t
  leaving : ∀ t, Prog.Visits shutdown e t → Two t
  reached : ∀ r t, Prog.Ends shutdown e r t → ∀ g, Holds t g → (t.leases g).released

/-- Whatever the runtime does, all is in custody between commands exactly if no redirect
panicked while what it led away from still held something. -/
theorem inCustody_iff_lost_eq_none {b : Bool} (h : Between b e) : InCustody e ↔ e.lost = none := by
  have hafter := h.after
  constructor
  · intro hc
    by_contra hl
    obtain ⟨p, hp⟩ := ne_none_iff_exists'.mp hl
    obtain ⟨S, -, hs⟩ := hafter
    have hgone := hs.gone p hp
    rcases hc.kept p hgone.holds with ha | hr
    · exact hgone.active ha
    · exact hgone.retiring hr
  · intro hl
    have hL : ¬ e.lost ≠ none := not_not.mpr hl
    have hloop := hafter.loopOnce_wp (F := fun _ _ => True) (.inl hl)
    obtain ⟨S, hS, hs⟩ := hafter
    have hdown := hs.shutdown_wp (F := fun _ _ => True)
    refine ⟨fun g hg => ?_, (hS hL).two hs.within, fun t ht => wp_visits hloop ht hL,
      fun t ht => (hS hL).two (wp_visits hdown ht), fun r t ht g hg => ?_⟩
    · exact (hs.kept hl g hg).imp_right fun hk => hk.resolve_right nofun
    · cases r with
      | error x => exact x.elim
      | ok u =>
        have hleft := (wp_ends hdown ht).1 u rfl
        refine hleft.released g ?_
        rcases hleft.sound.kept (hleft.lost.trans hl) g hg with ha | hr | hi
        · cases hleft.active.symm.trans ha
        · exact .inr (hleft.retiring ▸ hr)
        · exact .inl (mem_toList.mp hi)

end

/-! ### A redirect that panics -/

def answer (flag : Bool) : Answer := ⟨[], .ok, [], 0, flag⟩

/-- What the surroundings decide until an attempt is in the slot: the manifest is the
expected one, the attempt may commit, and all other questions are answered with no. -/
def standing : List Answer :=
  [false, false, false, false, true, false, false, false, false, false, false, false, true].map answer

def activated : List Answer := standing ++ [answer false, answer false]

def redirectPanicked : List Answer := standing ++ [⟨[], .panic, [], 0, false⟩, answer false, answer false]

def wentOn : Except Empty Bool → Bool
  | .ok b => b
  | .error _ => false

theorem between_of_exec (kind : CommandKind) (answers : List Answer) {b : Executor → Bool} {e : Executor}
    (he : Between true e)
    (h : (loopOnce.exec answers (e.other (.send kind))).2.any fun r => wentOn r.1 && b r.2) :
    ∃ t, Between true t ∧ b t := by
  obtain ⟨r, t, hends, hr⟩ := exists_ends_of_exec h
  rw [Bool.and_eq_true] at hr
  cases r with
  | error x => exact x.elim
  | ok go =>
    cases hgo : go with
    | false =>
      rw [hgo] at hr
      cases hr.1
    | true => exact ⟨t, .turned (.other (.send kind) he) (hgo ▸ hends), hr.2⟩

theorem inCustody_after_activation :
    ∃ e, Between true e ∧ (e.lost = none ∧ e.active = some 1) ∧ InCustody e := by
  obtain ⟨e, he, hb⟩ := between_of_exec .activate activated
    (b := fun t => decide (t.lost = none ∧ t.active = some 1)) .init (by decide +kernel)
  have h := of_decide_eq_true hb
  exact ⟨e, he, h, (inCustody_iff_lost_eq_none he).mpr h.1⟩

/-- The first lease holds something in nobody's hands, and still does after a shutdown. -/
def forgotten (e : Executor) : Bool := decide (Holds e 1 ∧ e.active ≠ some 1 ∧ 1 ∉ e.retiring) &&
    (shutdown.exec [] e).2.any fun r => decide (Holds r.2 1 ∧ (r.2.leases 1).released = false)

/-- An update whose redirect panics: the release that served before is in nobody's
hands, still holds what it held, and is not reached by the shutdown. -/
theorem previous_forgotten : ∃ e, Between true e ∧
    (Holds e 1 ∧ e.active ≠ some 1 ∧ 1 ∉ e.retiring) ∧
    ∃ r t, Prog.Ends shutdown e r t ∧ Holds t 1 ∧ (t.leases 1).released = false := by
  have hfirst : ∃ d, Between true d ∧ (loopOnce.exec redirectPanicked (d.other (.send .update))).2.any
      (fun r => wentOn r.1 && forgotten r.2) :=
    between_of_exec .activate activated .init (by decide +kernel)
  obtain ⟨d, hd, hpanicked⟩ := hfirst
  obtain ⟨e, he, hb⟩ := between_of_exec .update redirectPanicked hd hpanicked
  rw [forgotten, Bool.and_eq_true] at hb
  obtain ⟨r, t, ht, hleft⟩ := exists_ends_of_exec hb.2
  exact ⟨e, he, of_decide_eq_true hb.1, r, t, ht, of_decide_eq_true hleft⟩

end AiiOs.PluginFacility
