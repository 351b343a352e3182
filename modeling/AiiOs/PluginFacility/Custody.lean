import AiiOs.PluginFacility.Executor

/-! Custody of the leases: what holds something is in the active slot, in the list of what
is retiring, or in the hands of the attempt that is under way. -/

namespace AiiOs.PluginFacility
open Lib List Prog

section
variable {e e' : Executor} {g : Generation}

def Holds (e : Executor) (g : Generation) : Prop := (e.leases g).held ≠ []

instance : Decidable (Holds e g) := inferInstanceAs (Decidable (_ ≠ []))

structure Open (e : Executor) (g : Generation) : Prop where
  retiring : g ∉ e.retiring
  released : (e.leases g).released = false

structure Unheld (e : Executor) (g : Generation) : Prop extends Open e g where
  empty : ¬ Holds e g
  active : e.active ≠ some g

structure Fresh (e : Executor) : Prop where
  later : ∀ g, e.next ≤ g → Unheld e g
  pending : ∀ c, e.pending = some c → c.gen < e.next ∧ Unheld e c.gen

structure Begun (e : Executor) (g : Generation) : Prop where
  lt : g < e.next
  pending : ∀ c, e.pending = some c → c.gen ≠ g

/-! ### The other goroutines -/

structure Quiet (e e' : Executor) : Prop where
  active : e'.active = e.active
  retiring : e'.retiring = e.retiring
  lost : e'.lost = e.lost
  next : e.next ≤ e'.next
  pending : ∀ c, e'.pending = some c → e.pending = some c ∨ e.next ≤ c.gen ∧ c.gen < e'.next
  holds : ∀ g, Holds e' g → Holds e g
  released : ∀ g, (e.leases g).released → (e'.leases g).released
  held : ∀ g, Begun e g → Open e g → Open e' g ∧ (e'.leases g).held = (e.leases g).held
  fresh : ∀ g, e'.next ≤ g ∨ (∃ c, e'.pending = some c ∧ c.gen = g) → Open e g → Open e' g

theorem Begun.same (hb : Begun e g) (hnext : e'.next = e.next) (hpending : e'.pending = e.pending) :
    Begun e' g :=
  ⟨hnext ▸ hb.lt, hpending ▸ hb.pending⟩

/-- What is done to a generation that has begun leaves the fresh ones unheld. -/
theorem Fresh.same (hf : Fresh e) (hb : Begun e g) (hnext : e'.next = e.next)
    (hpending : e'.pending = e.pending)
    (hunheld : ∀ g', Unheld e g' → g' ≠ g → Unheld e' g') : Fresh e' := by
  constructor
  · intro g' hg'
    rw [hnext] at hg'
    exact hunheld g' (hf.later g' hg') (ne_of_gt (lt_of_lt_of_le hb.lt hg'))
  · intro c hc
    rw [hpending] at hc
    exact ⟨hnext ▸ (hf.pending c hc).1, hunheld _ (hf.pending c hc).2 (hb.pending c hc)⟩

theorem Begun.quiet (hb : Begun e g) (h : Quiet e e') : Begun e' g := by
  refine ⟨lt_of_lt_of_le hb.lt h.next, fun c hc => ?_⟩
  rcases h.pending c hc with hc | ⟨hle, -⟩
  · exact hb.pending c hc
  · exact ne_of_gt (lt_of_lt_of_le hb.lt hle)

theorem Quiet.refl : Quiet e e where
  active := rfl
  retiring := rfl
  lost := rfl
  next := le_rfl
  pending _ h := .inl h
  holds _ h := h
  released _ h := h
  held _ _ h := ⟨h, rfl⟩
  fresh _ _ h := h

theorem Quiet.trans {e'' : Executor} (h : Quiet e e') (h' : Quiet e' e'') : Quiet e e'' where
  active := h'.active.trans h.active
  retiring := h'.retiring.trans h.retiring
  lost := h'.lost.trans h.lost
  next := Nat.le_trans h.next h'.next
  pending c hc := by
    rcases h'.pending c hc with hc | ⟨h1, h2⟩
    · exact (h.pending c hc).imp_right fun hc => ⟨hc.1, Nat.lt_of_lt_of_le hc.2 h'.next⟩
    · exact .inr ⟨Nat.le_trans h.next h1, h2⟩
  holds g hg := h.holds g (h'.holds g hg)
  released g hg := h'.released g (h.released g hg)
  held g hb ho := by
    obtain ⟨ho', heq⟩ := h.held g hb ho
    obtain ⟨ho'', heq'⟩ := h'.held g (hb.quiet h) ho'
    exact ⟨ho'', heq'.trans heq⟩
  fresh g hg ho := by
    refine h'.fresh g hg (h.fresh g ?_ ho)
    rcases hg with hg | ⟨c, hc, rfl⟩
    · exact .inl (Nat.le_trans h'.next hg)
    · exact (h'.pending c hc).symm.imp And.left fun hc => ⟨c, hc, rfl⟩

theorem Fresh.quiet (hf : Fresh e) (h : Quiet e e') : Fresh e' := by
  have hunheld : ∀ g, e'.next ≤ g ∨ (∃ c, e'.pending = some c ∧ c.gen = g) → Unheld e g → Unheld e' g := by
    intro g hg hu
    exact ⟨h.fresh g hg hu.toOpen, fun hh => hu.empty (h.holds g hh), h.active ▸ hu.active⟩
  refine ⟨fun g hg => hunheld g (.inl hg) (hf.later g (le_trans h.next hg)), fun c hc => ?_⟩
  rcases h.pending c hc with hc' | ⟨h1, h2⟩
  · exact ⟨lt_of_lt_of_le (hf.pending c hc').1 h.next, hunheld _ (.inr ⟨c, hc, rfl⟩) (hf.pending c hc').2⟩
  · exact ⟨h2, hunheld _ (.inr ⟨c, hc, rfl⟩) (hf.later c.gen h1)⟩

variable {g' : Generation}

theorem leases_setLease {l : Lease} :
    (e.setLease g l).leases g' = if g' = g then l else e.leases g' := Function.update_apply ..

variable {keep : Nat} {ε : Type} {C : Executor → Prop} {E : ε → Executor → Prop}

theorem holds_release (h : Holds (e.release g keep) g') : Holds e g' := by
  rw [Holds, Executor.release, leases_setLease] at h
  split_ifs at h with heq
  · subst heq
    intro hempty
    simp [hempty] at h
  · exact h

theorem released_release (h : g' = g ∨ (e.leases g').released) : ((e.release g keep).leases g').released := by
  rw [Executor.release, leases_setLease]
  split_ifs with hne
  · rfl
  · exact h.resolve_left hne

theorem open_release (keep : Nat) (hne : g' ≠ g) (ho : Open e g') :
    Open (e.release g keep) g' ∧ ((e.release g keep).leases g').held = (e.leases g').held := by
  rw [Executor.release]
  refine ⟨⟨ho.retiring, ?_⟩, ?_⟩
  · rw [leases_setLease, if_neg hne]
    exact ho.released
  · rw [leases_setLease, if_neg hne]

theorem quiet_release (hg : ¬ Open e g) : Quiet e (e.release g keep) where
  active := rfl
  retiring := rfl
  lost := rfl
  next := le_rfl
  pending _ h := .inl h
  holds _ := holds_release
  released _ h := released_release (.inr h)
  held g' _ ho := open_release keep (by rintro rfl; exact hg ho) ho
  fresh g' _ ho := (open_release keep (by rintro rfl; exact hg ho) ho).1

theorem quiet_of_same (hactive : e'.active = e.active) (hretiring : e'.retiring = e.retiring)
    (hlost : e'.lost = e.lost) (hnext : e'.next = e.next) (hpending : e'.pending = e.pending)
    (hheld : ∀ g, (e'.leases g).held = (e.leases g).held)
    (hreleased : ∀ g, (e'.leases g).released = (e.leases g).released) : Quiet e e' where
  active := hactive
  retiring := hretiring
  lost := hlost
  next := Nat.le_of_eq hnext.symm
  pending c hc := .inl (hpending ▸ hc)
  holds g hg := by
    rw [Holds, ← hheld]
    exact hg
  released g hg := (hreleased g).trans hg
  held g _ ho := ⟨⟨hretiring ▸ ho.retiring, (hreleased g).trans ho.released⟩, hheld g⟩
  fresh g _ ho := ⟨hretiring ▸ ho.retiring, (hreleased g).trans ho.released⟩

theorem quiet_withdraw : Quiet e (e.withdraw g) := by
  refine quiet_of_same rfl rfl rfl rfl rfl (fun g' => ?_) fun g' => ?_
  all_goals
    rw [Executor.withdraw, leases_setLease]
    split_ifs with h
    · rw [h]
    · rfl

theorem quiet_drop (hf : Fresh e) : Quiet e e.drop := by
  rw [Executor.drop]
  cases hp : e.pending with
  | none => exact .refl
  | some c =>
    refine ⟨rfl, rfl, rfl, le_rfl, nofun, fun _ => holds_release, fun _ hr => released_release (.inr hr),
      fun g hb ho => ?_, fun g hg ho => ?_⟩
    · obtain ⟨ho', heq⟩ := open_release 0 (fun h => hb.pending c hp h.symm) ho
      exact ⟨⟨ho'.retiring, ho'.released⟩, heq⟩
    · have hne : g ≠ c.gen := by
        rcases hg with hg | ⟨_, hc, -⟩
        · exact ne_of_gt (lt_of_lt_of_le (hf.pending c hp).1 hg)
        · cases hc
      have ho' := (open_release 0 hne ho).1
      exact ⟨ho'.retiring, ho'.released⟩

theorem quiet_choose (a : Attempt) : Quiet e (e.choose a) :=
  quiet_of_same rfl rfl rfl rfl rfl (fun _ => rfl) fun _ => rfl

theorem quiet_setRunning (a : Option Attempt) : Quiet e (e.setRunning a) :=
  quiet_of_same rfl rfl rfl rfl rfl (fun _ => rfl) fun _ => rfl

theorem quiet_send (hf : Fresh e) (kind : CommandKind) : Quiet e (e.send kind) := by
  rw [Executor.send]
  split_ifs
  · exact .refl
  · have hd := quiet_drop hf
    have hq : Quiet e { e.drop with pending := some ⟨kind, e.next⟩, next := e.next + 1 } := by
      refine ⟨hd.active, hd.retiring, hd.lost, Nat.le_succ _, fun c hc => ?_, hd.holds, hd.released,
        fun g hb ho => ?_, fun g hg ho => ?_⟩
      · cases hc
        exact .inr ⟨le_rfl, Nat.lt_succ_self _⟩
      · obtain ⟨ho', heq⟩ := hd.held g hb ho
        exact ⟨⟨ho'.retiring, ho'.released⟩, heq⟩
      · have hle : e.drop.next ≤ g := by
          have hnext : e.drop.next = e.next := by
            rw [Executor.drop]
            split <;> rfl
          rw [hnext]
          rcases hg with hg | ⟨_, hc, rfl⟩
          · exact Nat.le_of_succ_le hg
          · cases hc
            exact le_rfl
        have ho' := hd.fresh g (.inl hle) ho
        exact ⟨ho'.retiring, ho'.released⟩
    split
    · split_ifs
      · exact hq.trans (quiet_choose _)
      · exact hq
    · exact hq

theorem quiet_other (hf : Fresh e) (o : Other) : Quiet e (e.other o) := by
  cases o with
  | send kind => exact quiet_send hf kind
  | withdraw g =>
    rw [Executor.other, Executor.withdrawGen]
    split
    · split_ifs
      · exact quiet_choose _
      · exact quiet_drop hf
      · exact .refl
    · split_ifs
      · exact quiet_drop hf
      · exact .refl
  | close =>
    rw [Executor.other, Executor.close]
    split_ifs
    · exact .refl
    · have hq : Quiet e { e.drop with closed := true } :=
        (quiet_drop hf).trans (quiet_of_same rfl rfl rfl rfl rfl (fun _ => rfl) fun _ => rfl)
      split
      · exact hq.trans (quiet_choose _)
      · exact hq
  | takeBack i =>
    rw [Executor.other, Executor.takeBack]
    split
    · exact .refl
    · exact quiet_withdraw.trans (quiet_of_same rfl rfl rfl rfl rfl (fun _ => rfl) fun _ => rfl)
  | cancel i =>
    rw [Executor.other, Executor.cancelTakenBack]
    split
    · split_ifs
      · exact quiet_of_same rfl rfl rfl rfl rfl (fun _ => rfl) fun _ => rfl
      · exact quiet_of_same rfl rfl rfl rfl rfl (fun _ => rfl) fun _ => rfl
    · exact .refl
  | parentDone => exact quiet_setRunning _
  | release g keep =>
    rw [Executor.other]
    split_ifs with h
    · refine quiet_release fun ho => ?_
      rcases h with h | h
      · exact ho.retiring h
      · cases ho.released.symm.trans h
    · exact .refl

theorem turn_rule {Q : Answer → Executor → Prop} (hf : Fresh e)
    (hC : ∀ t, Quiet e t → C t) (hQ : ∀ a t, Quiet e t → Q a t) : (turn : Exec ε Answer).wp C Q E e := by
  intro a
  have hothers : Prog.wp C (fun _ => Quiet e) E (forM a.others fun o => .act (.other o) : Exec ε Unit) e := by
    refine wp_post (wp_forM (I := fun _ => Quiet e) .refl ?_) fun _ _ h => h
    intro l₁ o l₂ t _ ht
    have hstep := ht.trans (quiet_other (hf.quiet ht) o)
    exact ⟨hC _ hstep, hstep⟩
  rw [wp_bind]
  exact wp_post hothers fun _ t ht => hQ a t ht

theorem question_rule {Q : Bool → Executor → Prop} (hf : Fresh e)
    (hC : ∀ t, Quiet e t → C t) (hQ : ∀ b t, Quiet e t → Q b t) : (question : Exec ε Bool).wp C Q E e := by
  rw [question, wp_bind]
  exact turn_rule hf hC fun a t ht => hQ _ t ht

/-! ### Custody -/

/-- A lease that nobody will give back. -/
structure Gone (e : Executor) (p : Generation) : Prop extends Open e p where
  holds : Holds e p
  active : e.active ≠ some p

/-- The leases in `hand` are those of the steps under way; `S` bounds what holds
something, and under `L` a lease is lost. -/
structure Sound (L : Prop) (S : Generation → Prop) (hand : List Generation) (e : Executor) : Prop where
  fresh : Fresh e
  begun : ∀ g ∈ hand, Begun e g ∧ e.lost ≠ some g
  within : ∀ g, Holds e g → S g
  kept : e.lost = none → ∀ g, Holds e g → e.active = some g ∨ g ∈ e.retiring ∨ g ∈ hand
  slot : ∀ g, e.active = some g → g ∈ hand ∨ Open e g
  gone : ∀ p, e.lost = some p → Gone e p
  since : L → e.lost ≠ none

theorem Fresh.begun_of_not_unheld (hf : Fresh e) (h : ¬ Unheld e g) : Begun e g := by
  refine ⟨Nat.lt_of_not_le fun hg => h (hf.later g hg), fun c hc hg => h (hg ▸ (hf.pending c hc).2)⟩

theorem Fresh.begun_of_active (hf : Fresh e) (h : e.active = some g) : Begun e g :=
  hf.begun_of_not_unheld fun hu => hu.active h

variable {L : Prop} {S : Generation → Prop} {hand : List Generation}

theorem open_hold {names : List (List Char)} (ho : Open e g') : Open (e.hold g names) g' := by
  refine ⟨ho.retiring, ?_⟩
  rw [Executor.hold, leases_setLease]
  split_ifs with heq
  · subst heq
    exact ho.released
  · exact ho.released

section
variable (h : Sound L S hand e)
include h

theorem Sound.quiet (hq : Quiet e e') : Sound L S hand e' where
  fresh := h.fresh.quiet hq
  begun g hg := ⟨(h.begun g hg).1.quiet hq, hq.lost ▸ (h.begun g hg).2⟩
  within g hg := h.within g (hq.holds g hg)
  kept hl g hg := by
    rw [hq.active, hq.retiring]
    exact h.kept (hq.lost ▸ hl) g (hq.holds g hg)
  slot g hg := by
    rw [hq.active] at hg
    exact (h.slot g hg).imp_right fun ho => (hq.held g (h.fresh.begun_of_active hg) ho).1
  gone p hp := by
    have hgone := h.gone p (hq.lost ▸ hp)
    obtain ⟨ho, hheld⟩ := hq.held p (h.fresh.begun_of_not_unheld fun hu => hu.empty hgone.holds) hgone.toOpen
    exact ⟨ho, by rw [Holds, hheld]; exact hgone.holds, hq.active ▸ hgone.active⟩
  since hL := hq.lost ▸ h.since hL

theorem Sound.congr {hand' : List Generation} (hmem : ∀ g, g ∈ hand ↔ g ∈ hand') :
    Sound L S hand' e where
  fresh := h.fresh
  begun g hg := h.begun g ((hmem g).mpr hg)
  within := h.within
  kept hl g hg := (h.kept hl g hg).imp_right fun hk => hk.imp_right (hmem g).mp
  slot g hg := (h.slot g hg).imp_left (hmem g).mp
  gone := h.gone
  since := h.since

theorem Sound.release (hg : g ∈ hand ∨ g ∈ e.retiring) (keep : Nat) :
    Sound L S hand (e.release g keep) := by
  have hlost : ∀ p, e.lost = some p → p ≠ g := by
    rintro p hp rfl
    rcases hg with hg | hg
    · exact (h.begun p hg).2 hp
    · exact (h.gone p hp).retiring hg
  have hbegun : Begun e g := by
    rcases hg with hg | hg
    · exact (h.begun g hg).1
    · exact h.fresh.begun_of_not_unheld fun hu => hu.retiring hg
  have hunheld : ∀ g', Unheld e g' → g' ≠ g → Unheld (e.release g keep) g' := fun g' hu hne =>
    ⟨(open_release keep hne hu.toOpen).1, fun hh => hu.empty (holds_release hh), hu.active⟩
  refine ⟨h.fresh.same hbegun rfl rfl hunheld,
    fun g' hg' => (h.begun g' hg').imp_left fun hb => hb.same rfl rfl, fun g' hh =>
    h.within g' (holds_release hh),
    fun hl g' hh => h.kept hl g' (holds_release hh), fun g' hg' => ?_, fun p hp => ?_, h.since⟩
  · rcases h.slot g' hg' with hin | ho
    · exact .inl hin
    · by_cases hne : g' = g
      · subst hne
        exact .inl (hg.resolve_right ho.retiring)
      · exact .inr (open_release keep hne ho).1
  · have hgone := h.gone p hp
    obtain ⟨ho, hheld⟩ := open_release keep (hlost p hp) hgone.toOpen
    exact ⟨ho, by rw [Holds, hheld]; exact hgone.holds, hgone.active⟩

theorem Sound.hold (hg : g ∈ hand) (hS : S g) (names : List (List Char)) :
    Sound L S hand (e.hold g names) := by
  have hbegun := (h.begun g hg).1
  have hlease : ∀ g', g' ≠ g → (e.hold g names).leases g' = e.leases g' := by
    intro g' hne
    rw [Executor.hold, leases_setLease, if_neg hne]
  have hholds : ∀ g', Holds (e.hold g names) g' → g' = g ∨ Holds e g' := by
    intro g' hh
    by_cases heq : g' = g
    · exact .inl heq
    · exact .inr (by rw [Holds, ← hlease g' heq]; exact hh)
  have hunheld : ∀ g', Unheld e g' → g' ≠ g → Unheld (e.hold g names) g' := fun g' hu hne =>
    ⟨open_hold hu.toOpen, fun hh => (hholds g' hh).elim hne hu.empty, hu.active⟩
  refine ⟨h.fresh.same hbegun rfl rfl hunheld,
    fun g' hg' => (h.begun g' hg').imp_left fun hb => hb.same rfl rfl, fun g' hh => ?_, fun hl g' hh => ?_,
    fun g' hg' => (h.slot g' hg').imp_right open_hold, fun p hp => ?_, h.since⟩
  · rcases hholds g' hh with rfl | hh
    · exact hS
    · exact h.within g' hh
  · rcases hholds g' hh with rfl | hh
    · exact .inr (.inr hg)
    · exact h.kept hl g' hh
  · have hgone := h.gone p hp
    have hne : p ≠ g := by
      rintro rfl
      exact (h.begun p hg).2 hp
    exact ⟨open_hold hgone.toOpen, by rw [Holds, hlease p hne]; exact hgone.holds, hgone.active⟩

theorem Sound.setActive {x : Option Generation}
    (hx : ∀ g, x = some g → Begun e g ∧ e.lost ≠ some g ∧ (g ∈ hand ∨ Open e g)) :
    Sound L S (e.active.toList ++ hand) (e.setActive x) := by
  have hunheld : ∀ g', Unheld e g' → ¬ Begun e g' → Unheld (e.setActive x) g' := fun g' hu hb =>
    ⟨⟨hu.retiring, hu.released⟩, hu.empty, fun hg' => hb (hx g' hg').1⟩
  refine ⟨⟨fun g' hg' => hunheld g' (h.fresh.later g' hg') fun hb => ?_, fun c hc =>
    ⟨(h.fresh.pending c hc).1,
    hunheld _ (h.fresh.pending c hc).2 fun hb => hb.pending c hc rfl⟩⟩, fun g hg => ?_, h.within,
    fun hl g' hh => ?_, fun g' hg' => ?_, fun p hp => ?_, h.since⟩
  · exact absurd hb.lt (not_lt.mpr hg')
  · rcases mem_append.mp hg with hg | hg
    · rw [Option.mem_toList] at hg
      exact ⟨(h.fresh.begun_of_active hg).same rfl rfl, fun hl => (h.gone g hl).active hg⟩
    · exact (h.begun g hg).imp_left fun hb => hb.same rfl rfl
  · rcases h.kept hl g' hh with ha | hr | hi
    · exact .inr (.inr (mem_append_left _ (Option.mem_toList.mpr ha)))
    · exact .inr (.inl hr)
    · exact .inr (.inr (mem_append_right _ hi))
  · rcases (hx g' hg').2.2 with hi | ho
    · exact .inl (mem_append_right _ hi)
    · exact .inr ⟨ho.retiring, ho.released⟩
  · have hgone := h.gone p hp
    exact ⟨⟨hgone.retiring, hgone.released⟩, hgone.holds, fun hg' => (hx p hg').2.1 hp⟩

theorem Sound.filterRetiring :
    Sound L S hand (e.setRetiring (e.retiring.filter fun g => !(e.leases g).discharged)) := by
  have hopen : ∀ g, Open e g → Open (e.setRetiring (e.retiring.filter fun g => !(e.leases g).discharged)) g :=
    fun g ho => ⟨fun hm => ho.retiring (mem_filter.mp hm).1, ho.released⟩
  have hunheld : ∀ g, Unheld e g →
      Unheld (e.setRetiring (e.retiring.filter fun g => !(e.leases g).discharged)) g := fun g hu =>
    ⟨hopen g hu.toOpen, hu.empty, hu.active⟩
  refine ⟨⟨fun g hg => hunheld g (h.fresh.later g hg), fun c hc => (h.fresh.pending c hc).imp_right
    (hunheld _)⟩, fun g hg => (h.begun g hg).imp_left fun hb => hb.same rfl rfl, h.within, fun hl g hh => ?_,
    fun g hg => (h.slot g hg).imp_right (hopen g), fun p hp => ?_, h.since⟩
  · refine (h.kept hl g hh).imp_right fun hk => hk.imp_left fun hr => mem_filter.mpr ⟨hr, ?_⟩
    rw [Bool.not_eq_true', Lease.discharged, Bool.and_eq_false_iff]
    exact .inr (isEmpty_eq_false_iff.mpr hh)
  · have hgone := h.gone p hp
    exact ⟨hopen p hgone.toOpen, hgone.holds, hgone.active⟩

end

theorem Sound.setRetiring (h : Sound L S (g :: hand) e) :
    Sound L S (g :: hand) (e.setRetiring (e.retiring ++ [g])) := by
  have hin : g ∈ g :: hand := mem_cons_self
  have hopen : ∀ g', g' ≠ g → Open e g' → Open (e.setRetiring (e.retiring ++ [g])) g' := by
    intro g' hne ho
    refine ⟨fun hm => ?_, ho.released⟩
    rcases mem_append.mp hm with hm | hm
    · exact ho.retiring hm
    · exact hne (mem_singleton.mp hm)
  have hunheld : ∀ g', Unheld e g' → g' ≠ g → Unheld (e.setRetiring (e.retiring ++ [g])) g' :=
    fun g' hu hne =>
    ⟨hopen g' hne hu.toOpen, hu.empty, hu.active⟩
  have hbegun := (h.begun g hin).1
  refine ⟨h.fresh.same hbegun rfl rfl hunheld,
    fun g' hg' => (h.begun g' hg').imp_left fun hb => hb.same rfl rfl, h.within,
    fun hl g' hh => ?_, fun g' hg' => ?_, fun p hp => ?_, h.since⟩
  · exact (h.kept hl g' hh).imp_right fun hk => hk.imp_left (mem_append_left _)
  · by_cases hne : g' = g
    · exact .inl (hne ▸ hin)
    · exact (h.slot g' hg').imp_right (hopen g' hne)
  · have hgone := h.gone p hp
    have hne : p ≠ g := by
      rintro rfl
      exact (h.begun p hin).2 hp
    exact ⟨hopen p hne hgone.toOpen, hgone.holds, hgone.active⟩

theorem Sound.letGo (h : Sound L S (g :: hand) e)
    (hkept : e.lost = none → Holds e g → e.active = some g ∨ g ∈ e.retiring ∨ g ∈ hand)
    (hslot : e.active = some g → g ∈ hand ∨ Open e g) : Sound L S hand e where
  fresh := h.fresh
  begun g' hg' := h.begun g' (mem_cons_of_mem _ hg')
  within := h.within
  kept hl g' hh := by
    rcases h.kept hl g' hh with ha | hr | hi
    · exact .inl ha
    · exact .inr (.inl hr)
    · rcases mem_cons.mp hi with rfl | hi
      · exact hkept hl hh
      · exact .inr (.inr hi)
  slot g' hg' := by
    rcases h.slot g' hg' with hi | ho
    · rcases mem_cons.mp hi with rfl | hi
      · exact hslot hg'
      · exact .inl hi
    · exact .inr ho
  gone := h.gone
  since := h.since

end

end AiiOs.PluginFacility
