import AiiOs.PluginFacility.Custody

/-! The commands of an executor keep custody of every lease, but for a panic of the
redirect away from a lease that still holds something. -/

namespace AiiOs.PluginFacility
open Lib List Option Prog

section
variable {e e' : Executor} {g : Generation} {L : Prop} {S : Generation → Prop} {hand : List Generation}
  {ε : Type} {E : ε → Executor → Prop}

def Within (S : Generation → Prop) (e : Executor) : Prop := ∀ g, Holds e g → S g

/-- What a step leaves alone: the slot, and the other leases that are open. -/
structure Beside (g : Generation) (e e' : Executor) : Prop where
  active : e'.active = e.active
  lost : e'.lost = e.lost
  released : ∀ g', (e.leases g').released → (e'.leases g').released
  others : ∀ g', g' ≠ g → Begun e g' → Open e g' → Begun e' g' ∧ Open e' g'

theorem Quiet.beside (h : Quiet e e') : Beside g e e' :=
  ⟨h.active, h.lost, h.released, fun g' _ hb ho => ⟨hb.quiet h, (h.held g' hb ho).1⟩⟩

theorem Beside.trans {e'' : Executor} (h : Beside g e e') (h' : Beside g e' e'') : Beside g e e'' :=
  ⟨h'.active.trans h.active, h'.lost.trans h.lost, fun g' hr => h'.released g' (h.released g' hr),
    fun g' hne hb ho =>
    h'.others g' hne (h.others g' hne hb ho).1 (h.others g' hne hb ho).2⟩

theorem beside_release (keep : Nat) : Beside g e (e.release g keep) :=
  ⟨rfl, rfl, fun _ hr => released_release (.inr hr), fun _ hne hb ho =>
    ⟨hb.same rfl rfl, (open_release keep hne ho).1⟩⟩

theorem beside_setRetiring : Beside g e (e.setRetiring (e.retiring ++ [g])) := by
  refine ⟨rfl, rfl, fun _ hr => hr, fun g' hne hb ho => ⟨hb.same rfl rfl, fun hm => ?_, ho.released⟩⟩
  rcases mem_append.mp hm with hm | hm
  · exact ho.retiring hm
  · exact hne (mem_singleton.mp hm)

/-! ### Giving back -/

theorem Sound.releaseLease_wp (h : Sound L S hand e) (hg : g ∈ hand ∨ g ∈ e.retiring) :
    (releaseLease g : Exec ε Unit).wp (Within S)
      (fun _ t => Sound L S hand t ∧ Beside g e t ∧ t.retiring = e.retiring ∧ (t.leases g).released) E e := by
  rw [releaseLease, wp_bind]
  refine turn_rule h.fresh (fun t ht => (h.quiet ht).within) fun a t ht => ?_
  have hrel := (h.quiet ht).release (hg.imp_right fun hr => ht.retiring ▸ hr) a.keep
  exact ⟨hrel.within, hrel, ht.beside.trans (beside_release a.keep), ht.retiring, released_release (.inl rfl)⟩

theorem Sound.keepRetiring_wp (h : Sound L S (g :: hand) e) (hslot : e.active ≠ some g) :
    (keepRetiring g : Exec ε Unit).wp (Within S) (fun _ t => Sound L S hand t ∧ Beside g e t) E e := by
  rw [keepRetiring, wp_bind]
  refine turn_rule h.fresh (fun t ht => (h.quiet ht).within) fun a t ht => ?_
  have hs := h.quiet ht
  have hslot' : t.active ≠ some g := ht.active ▸ hslot
  rw [wp_bind, wp_read]
  split_ifs with hd
  · refine ⟨hs.letGo (fun _ hh => ?_) (fun ha => absurd ha hslot'), ht.beside⟩
    rcases hd with hd | hd
    · rw [Lease.discharged, Bool.and_eq_true, List.isEmpty_iff] at hd
      exact absurd hd.2 hh
    · exact .inr (.inl hd)
  · have hr := hs.setRetiring
    refine ⟨hr.within, hr.letGo (fun _ _ => .inr (.inl ?_)) (fun ha => absurd ha hslot'),
      ht.beside.trans beside_setRetiring⟩
    exact mem_append_right _ mem_cons_self

theorem Sound.failedServing_wp (h : Sound L S hand e) :
    (failedServing : Exec ε Unit).wp (Within S) (fun _ => Sound L S hand) E e := by
  rw [failedServing, wp_bind]
  refine question_rule h.fresh (fun t ht => (h.quiet ht).within) fun terminal t ht => ?_
  have hs := h.quiet ht
  rw [wp_bind, wp_read, id]
  cases ha : t.active with
  | none => exact hs
  | some a =>
    split_ifs
    · exact hs
    · have hcleared : Sound L S (a :: hand) (t.setActive none) := by
        have := hs.setActive (x := none) (by rintro _ ⟨⟩)
        rwa [ha] at this
      have hwithdrawn : Sound L S (a :: hand) ((t.setActive none).withdraw a) := hcleared.quiet quiet_withdraw
      simp only [wp_bind, wp_act]
      refine ⟨hcleared.within, hwithdrawn.within, ?_⟩
      refine wp_post (hwithdrawn.releaseLease_wp (.inl mem_cons_self)) ?_
      rintro _ u ⟨hu, hbeside, -⟩
      have hslot : u.active ≠ some a := by
        rw [hbeside.active]
        rintro ⟨⟩
      exact wp_post (hu.keepRetiring_wp hslot) fun _ _ h => h.1

theorem Sound.retire_wp (h : Sound L S (g :: hand) e) (hslot : e.active ≠ some g) :
    (retire g : Exec ε Unit).wp (Within S) (fun _ t => Sound L S hand t ∧ Beside g e t) E e := by
  have hw := h.quiet (quiet_withdraw (g := g))
  have hr := hw.setRetiring
  have hin : g ∈ ((e.withdraw g).setRetiring ((e.withdraw g).retiring ++ [g])).retiring :=
    mem_append_right _ mem_cons_self
  have hl : Sound L S hand ((e.withdraw g).setRetiring ((e.withdraw g).retiring ++ [g])) :=
    hr.letGo (fun _ _ => .inr (.inl hin)) fun ha => absurd ha hslot
  have hbeside : Beside g e ((e.withdraw g).setRetiring ((e.withdraw g).retiring ++ [g])) :=
    quiet_withdraw.beside.trans beside_setRetiring
  simp only [retire, wp_bind]
  refine ⟨hw.within, hr.within, question_rule hl.fresh (fun t ht => (hl.quiet ht).within) fun b t ht => ?_⟩
  have hs := hl.quiet ht
  split_ifs
  · refine wp_post (hs.releaseLease_wp (.inr (ht.retiring ▸ hin))) ?_
    exact fun _ u hu => ⟨hu.1, (hbeside.trans ht.beside).trans hu.2.1⟩
  · exact ⟨hs, hbeside.trans ht.beside⟩

theorem Sound.refuse_wp (h : Sound L S [g] e) (hslot : e.active ≠ some g) :
    (refuse g : Exec ε Unit).wp (Within S) (fun _ => Sound L S []) E e := by
  rw [refuse, wp_bind]
  refine wp_post (h.releaseLease_wp (.inl mem_cons_self)) ?_
  rintro _ t ⟨ht, hbeside, -⟩
  rw [wp_bind]
  refine wp_post (ht.keepRetiring_wp (hbeside.active ▸ hslot)) ?_
  rintro _ u ⟨hu, -⟩
  rw [wp_bind]
  refine question_rule hu.fresh (fun v hv => (hu.quiet hv).within) fun b v hv => ?_
  split_ifs
  · exact (hu.quiet hv).failedServing_wp
  · exact hu.quiet hv

/-! ### An attempt -/

/-- The attempt `g` is on its way up, beside what is in the slot. -/
structure Standing (L : Prop) (S : Generation → Prop) (g : Generation) (x : Option Generation)
    (e : Executor) :
    Prop where
  sound : Sound L S [g] e
  opened : Open e g
  active : e.active = x
  apart : x ≠ some g

variable {x : Option Generation}

theorem Standing.quiet (h : Standing L S g x e) (hq : Quiet e e') : Standing L S g x e' :=
  ⟨h.sound.quiet hq, (hq.held g (h.sound.begun g mem_cons_self).1 h.opened).1,
    hq.active.trans h.active, h.apart⟩

theorem Standing.hold (h : Standing L S g x e) (hS : S g) (names : List (List Char)) :
    Standing L S g x (e.hold g names) :=
  ⟨h.sound.hold mem_cons_self hS names, open_hold h.opened, h.active, h.apart⟩

def Stands (L : Prop) (S : Generation → Prop) (g : Generation) (x : Option Generation)
    (p : Exec Panic Bool) : Prop :=
  ∀ e, Standing L S g x e → p.wp (Within S) (fun _ => Standing L S g x) (fun _ => Standing L S g x) e

theorem stands_question : Stands L S g x question := fun _ h =>
  question_rule h.sound.fresh (fun _ ht => (h.quiet ht).sound.within) fun _ _ ht => h.quiet ht

theorem stands_call : Stands L S g x call := by
  intro e h
  rw [call, wp_bind]
  refine turn_rule h.sound.fresh (fun t ht => (h.quiet ht).sound.within) fun a t ht => ?_
  cases a.outcome with
  | ok => exact h.quiet ht
  | error => exact h.quiet ht
  | panic => exact h.quiet ht

theorem stands_optionalCall : Stands L S g x optionalCall := by
  intro e h
  rw [optionalCall, wp_bind]
  refine wp_post (stands_question e h) fun b t ht => ?_
  cases b with
  | false => exact ht
  | true => exact stands_call t ht

theorem stands_admitStage (hS : S g) : Stands L S g x (admitStage g) := by
  intro e h
  rw [admitStage, wp_bind]
  refine wp_post (stands_question e h) fun b t ht => ?_
  cases b with
  | false => exact ht
  | true =>
    change Prog.wp _ _ _ (call >>= fun ok => if ok then _ else _) t
    rw [wp_bind]
    refine wp_post (stands_call t ht) fun ok u hu => ?_
    cases ok with
    | false => exact hu
    | true =>
      have hheld := hu.hold hS [charsOf "reservation"]
      exact ⟨hheld.sound.within, hheld⟩

theorem stands_startStage (hS : S g) : Stands L S g x (startStage g) := by
  intro e h
  rw [startStage, wp_bind]
  refine turn_rule h.sound.fresh (fun t ht => (h.quiet ht).sound.within) fun a t ht => ?_
  have hheld := (h.quiet ht).hold hS a.held
  refine ⟨hheld.sound.within, ?_⟩
  cases a.outcome with
  | ok =>
    have hactivation := hheld.hold hS [charsOf "activation"]
    exact ⟨hactivation.sound.within, hactivation⟩
  | error => exact hheld
  | panic => exact hheld

theorem stands_besideStage : Stands L S g x (besideStage g) := by
  intro e h
  rw [besideStage, wp_bind]
  refine wp_post (stands_question e h) fun b t ht => ?_
  cases b with
  | false => exact ht
  | true =>
    have hended : Standing L S g x (t.withdraw g).cancel :=
      ht.quiet (quiet_withdraw.trans (quiet_setRunning _))
    exact ⟨hended.sound.within, hended⟩

theorem stands_allOk {ps : List (Exec Panic Bool)} (h : ∀ p ∈ ps, Stands L S g x p) :
    Stands L S g x (allOk ps) := by
  induction ps with
  | nil => exact fun _ he => he
  | cons p ps ih =>
    intro e he
    rw [allOk, wp_bind]
    refine wp_post (h p mem_cons_self e he) fun ok t ht => ?_
    cases ok with
    | false => exact ht
    | true => exact ih (fun q hq => h q (mem_cons_of_mem _ hq)) t ht

theorem stands_standUp (hS : S g) : Stands L S g x (standUp g) := by
  refine stands_allOk fun p hp => ?_
  simp only [mem_cons, not_mem_nil, or_false] at hp
  rcases hp with rfl | rfl | rfl | rfl | rfl | rfl | rfl | rfl | rfl
  · exact stands_call
  · exact stands_question
  · exact stands_call
  · exact stands_optionalCall
  · exact stands_admitStage hS
  · exact stands_startStage hS
  · exact stands_call
  · exact stands_optionalCall
  · exact stands_besideStage

/-- The attempt is in the slot, and what was there before is in hand. -/
structure Slotted (L : Prop) (S : Generation → Prop) (g : Generation) (x : Option Generation) (e : Executor) :
    Prop where
  sound : Sound L S (x.toList ++ [g]) e
  active : e.active = some g
  opened : Open e g
  previous : ∀ p, x = some p → Open e p
  apart : x ≠ some g

theorem Slotted.quiet (h : Slotted L S g x e) (hq : Quiet e e') : Slotted L S g x e' where
  sound := h.sound.quiet hq
  active := hq.active.trans h.active
  opened := (hq.held g (h.sound.begun g (mem_append_right _ mem_cons_self)).1 h.opened).1
  previous p hp := by
    have hb := (h.sound.begun p (mem_append_left _ (mem_toList.mpr hp))).1
    exact (hq.held p hb (h.previous p hp)).1
  apart := h.apart

theorem Standing.takeSlot_wp (h : Standing L S g x e) :
    (takeSlot g).wp (Within S) (fun r t => (r = none → Standing L S g x t) ∧
      ∀ y, r = some y → y = x ∧ Slotted L S g x t) (fun _ => Sound L S [g]) e := by
  rw [takeSlot, wp_bind]
  refine question_rule h.sound.fresh (fun t ht => (h.quiet ht).sound.within) fun commit t ht => ?_
  have hs := h.quiet ht
  rw [wp_bind, wp_read]
  split_ifs
  · exact ⟨fun _ => hs, nofun⟩
  · have hw := hs.quiet (quiet_withdraw (g := g))
    exact ⟨hw.sound.within, fun _ => hw, nofun⟩
  · have hslot : Sound L S (x.toList ++ [g]) (t.setActive (some g)) := by
      rw [← hs.active]
      refine hs.sound.setActive fun q hq => ?_
      cases hq
      have hb := hs.sound.begun g mem_cons_self
      exact ⟨hb.1, hb.2, .inl mem_cons_self⟩
    refine ⟨hslot.within, nofun, fun y hy => ?_⟩
    cases hy
    refine ⟨hs.active, hslot, rfl, ⟨hs.opened.retiring, hs.opened.released⟩, fun p hp => ?_, hs.apart⟩
    rcases hs.sound.slot p (hs.active.trans hp) with hin | ho
    · exact absurd (hp.trans (congrArg some (mem_singleton.mp hin))) hs.apart
    · exact ⟨ho.retiring, ho.released⟩

variable {F : Panic → Executor → Prop}

theorem Sound.retirePrevious_wp (h : Sound L S (x.toList ++ [g]) e)
    (hx : e.active ≠ x ∨ x = none) (hg : x ≠ some g) (ho : Open e g) :
    (retirePrevious x).wp (Within S) (fun _ t => Sound L S [g] t ∧ t.active = e.active ∧ Open t g) F e := by
  cases x with
  | none => exact ⟨h, rfl, ho⟩
  | some p =>
    refine wp_post (h.retire_wp (hx.resolve_right nofun)) fun _ t ht => ?_
    refine ⟨ht.1, ht.2.active, (ht.2.others g ?_ ?_ ho).2⟩
    · rintro rfl
      exact hg rfl
    · exact (h.begun g (mem_cons_of_mem _ mem_cons_self)).1

section
variable (h : Slotted L S g x e)
include h

theorem Slotted.lose : Sound L S [g] (lose x e) := by
  cases x with
  | none => exact h.sound
  | some p =>
    have hne : e.active ≠ some p := fun ha => h.apart (ha.symm.trans h.active)
    change Sound L S [g] (if (e.leases p).held = [] then e else { e with lost := some p })
    split_ifs with hheld
    · exact h.sound.letGo (fun _ hh => absurd hheld hh) fun ha => absurd ha hne
    · have hunheld : ∀ q, Unheld e q → Unheld { e with lost := some p } q := fun q hu =>
        ⟨⟨hu.retiring, hu.released⟩, hu.empty, hu.active⟩
      refine ⟨⟨fun q hq => hunheld q (h.sound.fresh.later q hq), fun c hc =>
        (h.sound.fresh.pending c hc).imp_right (hunheld _)⟩, fun q hq => ?_, h.sound.within, nofun,
          fun q hq => ?_,
        fun q hq => ?_, fun _ => nofun⟩
      · have hb := h.sound.begun q (mem_append_right _ hq)
        refine ⟨hb.1.same rfl rfl, fun hl => h.apart ?_⟩
        rw [← mem_singleton.mp hq]
        exact hl
      · exact .inl (mem_singleton.mpr (Option.some.inj (hq.symm.trans h.active)))
      · cases hq
        have ho := h.previous p rfl
        exact ⟨⟨ho.retiring, ho.released⟩, hheld, hne⟩

theorem Slotted.redirect_wp :
    (redirect x).wp (Within S) (fun _ => Slotted L S g x) (fun _ => Sound L S [g]) e := by
  rw [redirect, wp_bind]
  refine turn_rule h.sound.fresh (fun t ht => (h.quiet ht).sound.within) fun a t ht => ?_
  have hs := h.quiet ht
  cases a.outcome with
  | ok => exact hs
  | error => exact hs
  | panic => exact ⟨hs.lose.within, hs.lose⟩

theorem Slotted.back : Sound L S (x.toList ++ [g]) (e.setActive x) := by
  refine (h.sound.setActive (x := x) fun q hq => ?_).congr fun q => ?_
  · have hin : q ∈ x.toList ++ [g] := mem_append_left _ (mem_toList.mpr hq)
    exact ⟨(h.sound.begun q hin).1, (h.sound.begun q hin).2, .inl hin⟩
  · rw [h.active]
    simp only [mem_append]
    tauto

theorem Slotted.withdrawn_wp :
    (withdrawn g x).wp (Within S) (fun _ => Sound L S []) (fun _ => Sound L S [g]) e := by
  have hback := h.back
  have hnone : Sound L S (x.toList ++ [g]) ((e.setActive x).setActive none) := by
    refine (hback.setActive (x := none) (by rintro _ ⟨⟩)).congr fun q => ?_
    simp only [mem_append]
    tauto
  simp only [withdrawn, wp_bind, wp_act]
  refine ⟨hback.within, hnone.within, ?_⟩
  refine wp_post (hnone.retirePrevious_wp ?_ h.apart ⟨h.opened.retiring, h.opened.released⟩) fun _ t ht => ?_
  · cases x with
    | none => exact .inr rfl
    | some p => exact .inl (by rintro ⟨⟩)
  · refine ht.1.refuse_wp ?_
    rw [ht.2.1]
    rintro ⟨⟩

theorem Slotted.settle_wp :
    (settle g x).wp (Within S) (fun _ => Sound L S []) (fun _ => Sound L S [g]) e := by
  rw [settle, wp_bind]
  refine turn_rule h.sound.fresh (fun t ht => (h.quiet ht).sound.within) fun a t ht => ?_
  have hs := h.quiet ht
  rw [wp_bind, wp_read]
  split_ifs
  · exact hs.withdrawn_wp
  · have hserve : Slotted L S g x (serve g t) :=
      hs.quiet (quiet_of_same rfl rfl rfl rfl rfl (fun _ => rfl) fun _ => rfl)
    refine ⟨hserve.sound.within, ?_⟩
    refine wp_post (hserve.sound.retirePrevious_wp ?_ h.apart hserve.opened) fun _ u hu => ?_
    · exact .inl fun ha => h.apart (ha.symm.trans hserve.active)
    · have ha : u.active = some g := hu.2.1.trans hserve.active
      exact hu.1.letGo (fun _ _ => .inl ha) fun _ => .inr hu.2.2

end

theorem Standing.commit_wp (h : Standing L S g x e) :
    (commit g).wp (Within S) (fun _ => Sound L S []) (fun _ => Sound L S [g]) e := by
  rw [commit, wp_bind]
  refine wp_post h.takeSlot_wp fun r t ht => ?_
  cases r with
  | none =>
    have hs := ht.1 rfl
    refine hs.sound.refuse_wp ?_
    rw [hs.active]
    exact hs.apart
  | some y =>
    obtain ⟨rfl, hs⟩ := ht.2 y rfl
    rw [wp_bind]
    refine wp_post hs.redirect_wp fun ok u hu => ?_
    cases ok with
    | true => exact hu.settle_wp
    | false =>
      have hslot : Sound L S [g] (u.setActive y) := by
        cases y with
        | none => exact hu.back
        | some p =>
          have ho := hu.previous p rfl
          exact hu.back.letGo (fun _ _ => .inl rfl) fun _ => .inr ⟨ho.retiring, ho.released⟩
      exact ⟨hslot.within, hslot.refuse_wp hu.apart⟩

/-! ### Commands -/

def Pair (S : Generation → Prop) : Prop := ∃ a b, ∀ g, S g → g = a ∨ g = b

def Two (e : Executor) : Prop := Pair (Holds e)

theorem Pair.two (hS : Pair S) (h : Within S e) : Two e := by
  obtain ⟨a, b, hab⟩ := hS
  exact ⟨a, b, fun g hg => hab g (h g hg)⟩

/-- What a command leaves: at most two leases hold something, unless one was lost before. -/
def After (L : Prop) (hand : List Generation) (e : Executor) : Prop :=
  ∃ S, (¬ L → Pair S) ∧ Sound L S hand e

theorem After.quiet (h : After L hand e) (hq : Quiet e e') : After L hand e' := by
  obtain ⟨S, hS, hs⟩ := h
  exact ⟨S, hS, hs.quiet hq⟩

theorem Standing.narrow (h : Standing L S g x e) (hr : e.retiring = []) (hL : e.lost = none ∨ L) :
    Standing L (fun q => L ∨ q = g ∨ x = some q) g x e := by
  refine ⟨⟨h.sound.fresh, h.sound.begun, fun q hq => ?_, h.sound.kept, h.sound.slot, h.sound.gone,
    h.sound.since⟩, h.opened, h.active, h.apart⟩
  rcases hL with hl | hL
  · rcases h.sound.kept hl q hq with ha | hm | hi
    · exact .inr (.inr (h.active.symm.trans ha))
    · rw [hr] at hm
      cases hm
    · exact .inr (.inl (mem_singleton.mp hi))
  · exact .inl hL

theorem pair_narrow (hL : ¬ L) : Pair fun q => L ∨ q = g ∨ x = some q := by
  refine ⟨g, x.getD g, fun q hq => ?_⟩
  rcases hq with hq | hq | rfl
  · exact absurd hq hL
  · exact .inl hq
  · exact .inr rfl

theorem Standing.retirementPending_wp (h : Standing L S g x e) :
    (retirementPending : Exec Panic Bool).wp (Within S) (fun b t => Standing L S g x t ∧ t.lost = e.lost ∧
      (b = false → t.retiring = [])) (fun _ => Sound L S [g]) e := by
  rw [retirementPending, wp_bind]
  refine turn_rule h.sound.fresh (fun t ht => (h.quiet ht).sound.within) fun a t ht => ?_
  have hs := h.quiet ht
  have hf := hs.sound.filterRetiring
  refine ⟨hf.within, ⟨hf, ⟨fun hm => hs.opened.retiring (mem_filter.mp hm).1, hs.opened.released⟩, hs.active,
    hs.apart⟩, ht.lost, fun hb => ?_⟩
  rw [Bool.not_eq_false'] at hb
  exact List.isEmpty_iff.mp hb

theorem Standing.activate_wp (h : Standing L S g x e) (hS : ¬ L → Pair S) (hL : e.lost = none ∨ L) :
    (activate g).wp (fun t => ¬ L → Two t) (fun _ => After L []) (fun _ => After L [g]) e := by
  have htwo : ∀ {S' : Generation → Prop}, (¬ L → Pair S') → ∀ t, Within S' t → ¬ L → Two t :=
    fun hS' t ht hL => (hS' hL).two ht
  rw [activate, wp_bind]
  refine wp_mono h.retirementPending_wp (htwo hS) (fun b t ht => ?_) fun _ _ h => ⟨S, hS, h⟩
  obtain ⟨hs, hlost, hretiring⟩ := ht
  cases b with
  | true =>
    have hslot : t.active ≠ some g := by
      rw [hs.active]
      exact hs.apart
    exact wp_mono (hs.sound.refuse_wp hslot) (htwo hS) (fun _ _ h => ⟨S, hS, h⟩) fun _ _ h => ⟨S, hS, h⟩
  | false =>
    have hn := hs.narrow (hretiring rfl) (hlost ▸ hL)
    change Prog.wp _ _ _ (standUp g >>= fun ok => if ok then _ else _) t
    rw [wp_bind]
    have hafter : ∀ {hand : List Generation} {u : Executor},
        Sound L (fun q => L ∨ q = g ∨ x = some q) hand u → After L hand u := fun hu => ⟨_, pair_narrow, hu⟩
    refine wp_mono (stands_standUp (.inr (.inl rfl)) t hn) (htwo pair_narrow) (fun ok u hu => ?_)
      (fun _ _ h => hafter h.sound)
    cases ok with
    | true => exact wp_mono hu.commit_wp (htwo pair_narrow) (fun _ _ => hafter) fun _ _ => hafter
    | false =>
      have hslot : u.active ≠ some g := by
        rw [hu.active]
        exact hu.apart
      exact wp_mono (hu.sound.refuse_wp hslot) (htwo pair_narrow) (fun _ _ => hafter) fun _ _ => hafter

theorem Sound.recover_wp {F : Empty → Executor → Prop} (h : Sound L S [g] e) :
    (recover g).wp (Within S) (fun _ => Sound L S []) F e := by
  rw [recover, wp_bind]
  refine wp_post (h.releaseLease_wp (.inl mem_cons_self)) fun _ t ht => ?_
  have hs : Sound L S [g] (if t.active = some g then t.setActive none else t) ∧
      (if t.active = some g then t.setActive none else t).active ≠ some g := by
    split_ifs with ha
    · refine ⟨(ht.1.setActive (x := none) nofun).congr fun q => ?_, nofun⟩
      rw [ha]
      simp
    · exact ⟨ht.1, ha⟩
  refine ⟨hs.1.within, ?_⟩
  exact wp_post (hs.1.keepRetiring_wp hs.2) fun _ _ h => h.1

theorem Sound.deactivate_wp (h : Sound L S [] e) : deactivate.wp (Within S) (fun _ => Sound L S []) F e := by
  rw [deactivate, wp_bind, wp_read]
  cases ha : e.active with
  | none => exact h
  | some g =>
    have hnone : Sound L S [g] (e.setActive none) := by
      have := h.setActive (x := none) nofun
      rwa [ha] at this
    exact ⟨hnone.within, wp_post (hnone.retire_wp nofun) fun _ _ h => h.1⟩

theorem Sound.readmit_wp (h : Sound L S [] e) :
    readmission.wp (Within S) (fun _ => Sound L S []) (fun _ => Sound L S []) e := by
  rw [readmission, wp_bind, wp_read]
  split_ifs
  · exact h
  · have hcall : call.wp (Within S) (fun _ => Sound L S []) (fun _ => Sound L S []) e := by
      rw [call, wp_bind]
      refine turn_rule h.fresh (fun t ht => (h.quiet ht).within) fun a t ht => ?_
      cases a.outcome with
      | ok => exact h.quiet ht
      | error => exact h.quiet ht
      | panic => exact h.quiet ht
    rw [wp_bind]
    refine wp_post hcall fun ok t ht => ?_
    rw [wp_bind]
    refine question_rule ht.fresh (fun u hu => (ht.quiet hu).within) fun allowed u hu => ?_
    rw [wp_bind, wp_read]
    split_ifs
    · exact ht.quiet hu
    · exact (ht.quiet hu).deactivate_wp

end

end AiiOs.PluginFacility
