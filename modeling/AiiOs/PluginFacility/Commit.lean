import AiiOs.PluginFacility.Calm
import AiiOs.PluginFacility.Loop

/-! An activation that was announced stays authorised as long as it is in the slot, and
was authorised when it was announced, unless a taking back crosses the commit. -/

namespace AiiOs.PluginFacility
open Lib List Option Prog

section
variable {e e' : Executor} {g p : Generation} {safe : List Generation} {x : Option Generation}
  {y : Option Generation}

/-! ### The executor's own steps -/

theorem Clean.weaken (h : Clean safe x e) {safe' : List Generation} (hsub : ∀ g ∈ safe', g ∈ safe)
    (hslot : ∀ g, x = some g → g ∈ safe') : Clean safe' x e :=
  ⟨h.active, hslot, fun p hp => h.safe p (hsub p hp), h.served, h.takeBacks, h.running, h.later, h.pending⟩

theorem Clean.setActive (h : Clean safe x e) (hy : ∀ g, y = some g → g ∈ safe) :
    Clean safe y (e.setActive y) where
  active := rfl
  slot := hy
  safe p hp := (h.safe p hp).imp_left fun hb => hb.same rfl rfl
  served := h.served
  takeBacks t ht := (h.takeBacks t ht).imp_left fun hb => hb.same rfl rfl
  running a ha := (h.running a ha).imp_left fun hb => hb.same rfl rfl
  later := h.later
  pending := h.pending

theorem Clean.setRunning (h : Clean safe x e) {r : Option Attempt}
    (hr : ∀ a, r = some a → Begun e a.gen ∧ (a.committed = false → ¬ Served e a.gen)) :
    Clean safe x (e.setRunning r) where
  active := h.active
  slot := h.slot
  safe p hp := (h.safe p hp).imp_left fun hb => hb.same rfl rfl
  served := h.served
  takeBacks t ht := (h.takeBacks t ht).imp_left fun hb => hb.same rfl rfl
  running a ha := (hr a ha).imp_left fun hb => hb.same rfl rfl
  later := h.later
  pending := h.pending

theorem withdrawn_withdraw (hne : g ≠ p) : ((e.withdraw p).leases g).withdrawn = (e.leases g).withdrawn := by
  rw [Executor.withdraw, leases_setLease, if_neg hne]

theorem Clean.withdraw (h : Clean safe x e) (hb : Begun e p) (hp : p ∈ safe → ¬ Served e p) :
    Clean safe x (e.withdraw p) where
  active := h.active
  slot := h.slot
  safe q hq := by
    refine ⟨(h.safe q hq).1.same rfl rfl, fun hs => ?_⟩
    have hne : q ≠ p := by
      rintro rfl
      exact hp hq hs
    rw [withdrawn_withdraw hne]
    exact (h.safe q hq).2 hs
  served := h.served
  takeBacks t ht := (h.takeBacks t ht).imp_left fun hb => hb.same rfl rfl
  running a ha := (h.running a ha).imp_left fun hb => hb.same rfl rfl
  later q hq := by
    have hne : q ≠ p := Nat.ne_of_gt (Nat.lt_of_lt_of_le hb.lt hq)
    rw [withdrawn_withdraw hne]
    exact h.later q hq
  pending c hc := by
    rw [withdrawn_withdraw (hb.pending c hc)]
    exact h.pending c hc

theorem served_serve {q : Generation} : Served (serve g e) q ↔ q = g ∨ Served e q := by
  constructor
  · rintro ⟨b, hb⟩
    rcases mem_cons.mp hb with hb | hb
    · exact .inl (Prod.mk.inj hb).1
    · exact .inr ⟨b, hb⟩
  · rintro (rfl | ⟨b, hb⟩)
    · exact ⟨_, mem_cons_self⟩
    · exact ⟨b, mem_cons_of_mem _ hb⟩

theorem Live.authorised (h : Live g e) (hcancelled : e.cancelled = false) (hc : (serve g e).crossed = false) :
    (e.leases g).withdrawn = false ∧ ∀ t ∈ e.takeBacks, t.gen ≠ g := by
  obtain ⟨a, ha, -, -, hw⟩ := h
  have hnone : ∀ t ∈ e.takeBacks, t.gen ≠ g := by
    intro t ht hg
    rw [serve, Bool.or_eq_false_iff, List.any_eq_false] at hc
    exact hc.2 t ht (decide_eq_true hg)
  refine ⟨Bool.eq_false_iff.mpr fun hwithdrawn => ?_, hnone⟩
  rcases hw hwithdrawn with hcan | ⟨t, ht, hg⟩
  · rw [Executor.cancelled, ha, any_some, hcan] at hcancelled
    cases hcancelled
  · exact hnone t ht hg

theorem Clean.serve (h : Clean safe (some g) e) (hlive : Live g e) (hcancelled : e.cancelled = false)
    (hc : (serve g e).crossed = false) : Clean safe (some g) (serve g e) := by
  obtain ⟨hw, hnone⟩ := hlive.authorised hcancelled hc
  have hb : Begun e g := (h.safe g (h.slot g rfl)).1
  have hserved : ∀ {q}, q ≠ g → ¬ Served e q → ¬ Served (PluginFacility.serve g e) q := fun hne hn hs =>
    (served_serve.mp hs).elim hne hn
  refine ⟨h.active, h.slot, fun q hq => ⟨(h.safe q hq).1.same rfl rfl, fun hs => ?_⟩, fun q hq =>
    ?_, fun t ht => ?_, fun a ha => ?_, fun q hq => ?_, fun c hp => ?_⟩
  · rcases served_serve.mp hs with rfl | hs
    · exact hw
    · exact (h.safe q hq).2 hs
  · rcases mem_cons.mp hq with rfl | hq
    · exact congrArg not hw
    · exact h.served q hq
  · exact ⟨(h.takeBacks t ht).1.same rfl rfl, hserved (hnone t ht) (h.takeBacks t ht).2⟩
  · obtain ⟨a', ha', rfl⟩ := map_eq_some_iff.mp ha
    have hr := h.running a' ha'
    split_ifs with hg
    · exact ⟨hr.1.same rfl rfl, nofun⟩
    · exact ⟨hr.1.same rfl rfl, fun hcommitted => hserved hg (hr.2 hcommitted)⟩
  · exact (h.later q hq).imp_left (hserved (ne_of_gt (lt_of_lt_of_le hb.lt hq)))
  · exact (h.pending c hp).imp_right fun hrest => hrest.imp_left (hserved (hb.pending c hp))

/-! ### The phases of a command -/

def Rest (e : Executor) : Prop := ∃ x, Clean x.toList x e

def Waits (g : Generation) (e : Executor) : Prop :=
  ∃ x, x ≠ some g ∧ Clean x.toList x e ∧ Waiting g e

def Attempting (g : Generation) (e : Executor) : Prop :=
  ∃ x, x ≠ some g ∧ Clean x.toList x e ∧ Live g e

def Committing (g : Generation) (y : Option Generation) (e : Executor) : Prop :=
  y ≠ some g ∧ Clean (g :: y.toList) (some g) e ∧ Live g e

theorem Clean.rest (h : Clean safe x e) : Rest e := by
  refine ⟨x, h.weaken (fun q hq => h.slot q (mem_toList.mp hq)) fun q hq => mem_toList.mpr hq⟩

theorem Attempting.rest (h : Attempting g e) : Rest e := by
  obtain ⟨x, -, hc, -⟩ := h
  exact ⟨x, hc⟩

theorem calm_rest : Calm Rest := ⟨fun hs ⟨x, h⟩ => ⟨x, h.step hs⟩, fun ⟨_, h⟩ => h.authorised⟩

theorem calm_waits : Calm (Waits g) :=
  ⟨fun hs ⟨x, hx, h, hw⟩ => ⟨x, hx, h.step hs, hw.step hs⟩, fun ⟨_, _, h, _⟩ => h.authorised⟩

theorem calm_attempting : Calm (Attempting g) :=
  ⟨fun hs ⟨x, hx, h, hl⟩ => ⟨x, hx, h.step hs, hl.step hs⟩, fun ⟨_, _, h, _⟩ => h.authorised⟩

theorem calm_committing : Calm (Committing g y) :=
  ⟨fun hs ⟨hy, h, hl⟩ => ⟨hy, h.step hs, hl.step hs⟩, fun ⟨_, h, _⟩ => h.authorised⟩

variable {ε α : Type}

variable {P : Executor → Prop} {q : Exec ε α} {β : Type} {k : α → Exec ε β}

theorem Keeps.rest (hq : Keeps q) (hP : Calm P) (hrest : ∀ t, P t → Rest t) (h : Uncrossed P e) :
    q.wp (Uncrossed Authorised) (fun _ => Uncrossed Rest) (fun _ => Uncrossed Rest) e :=
  wp_mono (hq P hP e h) (fun _ h => h) (fun _ t ht hc => hrest t (ht hc)) fun _ t ht hc => hrest t (ht hc)

/-- The program comes to rest from `P`. -/
def Rests (P : Executor → Prop) (q : Exec ε α) : Prop := ∀ e, Uncrossed P e →
  q.wp (Uncrossed Authorised) (fun _ => Uncrossed Rest) (fun _ => Uncrossed Rest) e

theorem Rests.after_keeps (hP : Calm P) (hrest : ∀ t, P t → Rest t)
    (hq : Keeps q) (hk : ∀ a, Rests P (k a)) : Rests P (q >>= k) := by
  intro e h
  rw [wp_bind]
  exact wp_mono (hq P hP e h) (fun _ h => h) (fun a t ht => hk a t ht) fun _ t ht hc => hrest t (ht hc)

theorem rests_pure {a : α} : Rests Rest (pure a : Exec ε α) := fun _ h => h

theorem rests_of_keeps (hq : Keeps q) : Rests Rest q := hq Rest calm_rest

theorem Rests.bind (hq : Rests P q) (hk : ∀ a, Rests Rest (k a)) : Rests P (q >>= k) := by
  intro e h
  rw [wp_bind]
  exact wp_post (hq e h) fun a t ht => hk a t ht

theorem rests_act {Q : Executor → Prop} {f : Executor → Executor} {k : Unit → Exec ε β}
    (hQ : Calm Q) (hf : ∀ t, Uncrossed P t → Uncrossed Q (f t)) (hk : Rests Q (k ())) :
    Rests P (.act f >>= k) := by
  intro e h
  exact ⟨hQ.uncrossed (hf e h), hk _ (hf e h)⟩

theorem rests_failedServing : Rests Rest (failedServing : Exec ε Unit) := by
  refine (rests_of_keeps keeps_question).bind fun terminal t ht => ?_
  rw [wp_bind, wp_read, id]
  cases ha : t.active with
  | none => exact ht
  | some a =>
    split_ifs
    · exact ht
    · have hnone : Uncrossed (fun u => Clean [] none u ∧ Begun u a) (t.setActive none) := by
        intro hc
        obtain ⟨x, hx⟩ := ht hc
        have hslot : a ∈ x.toList := hx.slot a (hx.active.symm.trans ha)
        have hcleared : Clean x.toList none (t.setActive none) := hx.setActive nofun
        exact ⟨hcleared.weaken nofun nofun, (hcleared.safe a hslot).1⟩
      have hwithdrawn : Uncrossed (Clean [] none) ((t.setActive none).withdraw a) :=
        fun hc => (hnone hc).1.withdraw (hnone hc).2 nofun
      refine ⟨fun hc => (hnone hc).1.authorised, calm_clean.uncrossed hwithdrawn, ?_⟩
      exact (keeps_releaseLease.bind fun _ => keeps_keepRetiring).rest calm_clean
        (fun _ h => h.rest) hwithdrawn

theorem rests_retire (x : Option Generation) (safe : List Generation) :
    Rests (fun t => x ≠ some p ∧ Clean (p :: safe) x t) (retire p : Exec ε Unit) := by
  have hwithdraw : ∀ t, Uncrossed (x ≠ some p ∧ Clean (p :: safe) x ·) t →
      Uncrossed (Clean x.toList x) (t.withdraw p) := by
    intro t ht hc
    obtain ⟨hx, hclean⟩ := ht hc
    have hweak : Clean x.toList x t :=
      hclean.weaken (fun q hq => hclean.slot q (mem_toList.mp hq)) fun q hq => mem_toList.mpr hq
    exact hweak.withdraw (hclean.safe p mem_cons_self).1 fun hin => absurd (mem_toList.mp hin) hx
  refine rests_act calm_clean hwithdraw fun t ht => ?_
  refine Keeps.rest (P := Clean x.toList x) ?_ calm_clean (fun _ h => h.rest) ht
  refine (keeps_act fun u => steps_setRetiring (u.retiring ++ [p])).bind fun _ =>
    keeps_question.bind fun b => ?_
  split_ifs
  · exact keeps_releaseLease
  · exact keeps_pure

theorem rests_refuse : Rests Rest (refuse g : Exec ε Unit) := by
  refine (rests_of_keeps keeps_releaseLease).bind fun _ => ?_
  refine (rests_of_keeps keeps_keepRetiring).bind fun _ => ?_
  refine (rests_of_keeps keeps_question).bind fun b => ?_
  split_ifs
  · exact rests_failedServing
  · exact rests_pure

/-! ### An attempt -/

theorem Attempting.withdraw (h : Attempting g e) : Rest (e.withdraw g) := by
  obtain ⟨x, -, hclean, a, ha, hg, hc, -⟩ := h
  have hr := hclean.running a ha
  rw [hg] at hr
  exact ⟨x, hclean.withdraw hr.1 fun _ => hr.2 hc⟩

theorem keeps_besideStage (h : Uncrossed (Attempting g) e) :
    (besideStage g).wp (Uncrossed Authorised) (fun _ => Uncrossed (Attempting g))
      (fun _ => Uncrossed (Attempting g)) e := by
  rw [besideStage, wp_bind]
  refine wp_post (keeps_question _ calm_attempting e h) fun b t ht => ?_
  cases b with
  | false => exact ht
  | true =>
    have hended : Uncrossed (Attempting g) (t.withdraw g).cancel := by
      intro hc
      obtain ⟨x, hx, hclean, a, ha, hg, hcommitted, -⟩ := ht hc
      have hr := hclean.running a ha
      rw [hg] at hr
      have hw : Clean x.toList x (t.withdraw g) := hclean.withdraw hr.1 fun _ => hr.2 hcommitted
      refine ⟨x, hx, hw.step (steps_cancel hc).2, { a with cancelled := true }, ?_, hg, hcommitted,
        fun _ => .inl rfl⟩
      change t.running.map _ = _
      rw [ha]
      rfl
    exact ⟨calm_attempting.uncrossed hended, hended⟩

theorem keeps_allOk {ps : List (Exec Panic Bool)}
    (hps : ∀ q ∈ ps, ∀ e, Uncrossed P e →
      q.wp (Uncrossed Authorised) (fun _ => Uncrossed P) (fun _ => Uncrossed P) e)
    (h : Uncrossed P e) :
    (allOk ps).wp (Uncrossed Authorised) (fun _ => Uncrossed P) (fun _ => Uncrossed P) e := by
  induction ps generalizing e with
  | nil => exact h
  | cons q ps ih =>
    rw [allOk, wp_bind]
    refine wp_post (hps q mem_cons_self e h) fun ok t ht => ?_
    cases ok with
    | false => exact ht
    | true => exact ih (fun r hr => hps r (mem_cons_of_mem _ hr)) ht

theorem keeps_standUp (h : Uncrossed (Attempting g) e) :
    (standUp g).wp (Uncrossed Authorised) (fun _ => Uncrossed (Attempting g))
      (fun _ => Uncrossed (Attempting g)) e := by
  refine keeps_allOk (fun q hq => ?_) h
  simp only [mem_cons, not_mem_nil, or_false] at hq
  rcases hq with rfl | rfl | rfl | rfl | rfl | rfl | rfl | rfl | rfl
  · exact keeps_call _ calm_attempting
  · exact keeps_question _ calm_attempting
  · exact keeps_call _ calm_attempting
  · exact keeps_optionalCall _ calm_attempting
  · exact keeps_admitStage _ calm_attempting
  · exact keeps_startStage _ calm_attempting
  · exact keeps_call _ calm_attempting
  · exact keeps_optionalCall _ calm_attempting
  · exact fun _ => keeps_besideStage

theorem Attempting.setActive (h : Attempting g e) : Committing g e.active (e.setActive (some g)) := by
  obtain ⟨x, hx, hclean, hlive⟩ := h
  obtain ⟨a, ha, hg, hc, hw⟩ := hlive
  have hr := hclean.running a ha
  rw [hg] at hr
  rw [hclean.active]
  have hmore : Clean (g :: x.toList) x e := by
    refine ⟨hclean.active, fun q hq => mem_cons_of_mem _ (hclean.slot q hq), fun q hq => ?_, hclean.served,
      hclean.takeBacks, hclean.running, hclean.later, hclean.pending⟩
    rcases mem_cons.mp hq with rfl | hq
    · exact ⟨hr.1, fun hs => absurd hs (hr.2 hc)⟩
    · exact hclean.safe q hq
  refine ⟨hx, hmore.setActive fun q hq => ?_, a, ha, hg, hc, hw⟩
  cases hq
  exact mem_cons_self

theorem takeSlot_wp (h : Uncrossed (Attempting g) e) :
    (takeSlot g).wp (Uncrossed Authorised) (fun r t => (r = none → Uncrossed Rest t) ∧
      ∀ y, r = some y → Uncrossed (Committing g y) t) (fun _ => Uncrossed Rest) e := by
  rw [takeSlot, wp_bind]
  refine wp_mono (keeps_question _ calm_attempting e h) (fun _ h => h) (fun commit t ht => ?_)
    (fun _ _ ht hc => (ht hc).rest)
  rw [wp_bind, wp_read]
  split_ifs
  · exact ⟨fun _ hc => (ht hc).rest, by rintro _ ⟨⟩⟩
  · have hw : Uncrossed Rest (t.withdraw g) := fun hc => (ht hc).withdraw
    exact ⟨calm_rest.uncrossed hw, fun _ => hw, by rintro _ ⟨⟩⟩
  · have hs : Uncrossed (Committing g t.active) (t.setActive (some g)) := fun hc => (ht hc).setActive
    refine ⟨calm_committing.uncrossed hs, by rintro ⟨⟩, fun y hy => ?_⟩
    cases hy
    exact hs

variable {y : Option Generation}

theorem Committing.back (h : Committing g y e) : Clean (g :: y.toList) y (e.setActive y) :=
  h.2.1.setActive fun _ hq => mem_cons_of_mem _ (mem_toList.mpr hq)

theorem rests_retirePrevious (x : Option Generation) :
    Rests (fun t => x ≠ y ∧ Clean (g :: y.toList) x t) (retirePrevious y) := by
  cases y with
  | none => exact fun _ h hc => (h hc).2.rest
  | some p =>
    intro t ht
    refine rests_retire x [g] t fun hc => ?_
    obtain ⟨hx, hclean⟩ := ht hc
    refine ⟨hx, hclean.weaken (fun q hq => ?_) fun q hq => ?_⟩
    · rcases mem_cons.mp hq with rfl | hq
      · exact mem_cons_of_mem _ mem_cons_self
      · cases mem_singleton.mp hq
        exact mem_cons_self
    · rcases mem_cons.mp (hclean.slot q hq) with rfl | hq
      · exact mem_cons_of_mem _ mem_cons_self
      · cases mem_singleton.mp hq
        exact mem_cons_self

theorem rests_withdrawn : Rests (Committing g y) (withdrawn g y) := by
  refine rests_act (Q := Clean (g :: y.toList) y) calm_clean (fun t ht hc => (ht hc).back) ?_
  refine rests_act (Q := Clean (g :: y.toList) none) calm_clean (fun t ht hc => (ht hc).setActive nofun) ?_
  refine .bind ?_ fun _ => rests_refuse
  cases y with
  | none => exact fun _ h hc => (h hc).rest
  | some p => exact fun t ht => rests_retirePrevious none t fun hc => ⟨nofun, ht hc⟩

theorem rests_settle : Rests (Committing g y) (settle g y) := by
  refine .after_keeps calm_committing (fun _ h => h.2.1.rest) keeps_turn fun _ t ht => ?_
  rw [wp_bind, wp_read]
  split_ifs with hend
  · exact rests_withdrawn t ht
  · have hserve : Uncrossed (some g ≠ y ∧ Clean (g :: y.toList) (some g) ·) (serve g t) := by
      intro hc
      have hbefore : t.crossed = false := (Bool.or_eq_false_iff.mp hc).1
      obtain ⟨hy, hclean, hlive⟩ := ht hbefore
      exact ⟨hy.symm, hclean.serve hlive (Bool.eq_false_iff.mpr fun hcan => hend (.inr hcan)) hc⟩
    exact ⟨fun hc => (hserve hc).2.authorised, rests_retirePrevious _ _ hserve⟩

theorem rests_commit : Rests (Attempting g) (commit g) := by
  intro e h
  rw [commit, wp_bind]
  refine wp_post (takeSlot_wp h) fun r t ht => ?_
  cases r with
  | none => exact rests_refuse t (ht.1 rfl)
  | some y =>
    have hslot := ht.2 y rfl
    refine Rests.after_keeps calm_committing (fun _ h => h.2.1.rest) keeps_redirect (fun ok => ?_) t hslot
    split_ifs
    · exact rests_settle
    · exact rests_act calm_rest (fun u hu hc => (hu hc).back.rest) rests_refuse

theorem rests_activate : Rests (Attempting g) (activate g) := by
  refine .after_keeps calm_attempting (fun _ h => h.rest) keeps_retirementPending fun b => ?_
  split_ifs
  · exact fun t ht => rests_refuse t fun hc => (ht hc).rest
  · intro t ht
    rw [wp_bind]
    refine wp_mono (keeps_standUp ht) (fun _ h => h) (fun ok u hu => ?_) fun _ _ hu hc => (hu hc).rest
    split_ifs
    · exact rests_commit u hu
    · exact rests_refuse u fun hc => (hu hc).rest

/-! ### The loop -/

theorem Rest.setActive_none (h : Rest e) : Clean e.active.toList none (e.setActive none) := by
  obtain ⟨x, hx⟩ := h
  rw [hx.active]
  exact hx.setActive nofun

theorem rests_deactivate : Rests Rest deactivate := by
  intro e h
  rw [deactivate, wp_bind, wp_read]
  have hnone : Uncrossed (Clean e.active.toList none) (e.setActive none) := fun hc => (h hc).setActive_none
  cases ha : e.active with
  | none => exact h
  | some a =>
    rw [ha] at hnone
    exact ⟨calm_clean.uncrossed hnone, rests_retire none [] _ fun hc => ⟨by rintro ⟨⟩, hnone hc⟩⟩

theorem rests_readmission : Rests Rest readmission := by
  refine (rests_of_keeps keeps_read).bind fun a => ?_
  split_ifs
  · exact rests_pure
  · refine (rests_of_keeps keeps_call).bind fun ok => ?_
    refine (rests_of_keeps keeps_question).bind fun allowed => ?_
    refine (rests_of_keeps keeps_read).bind fun cancelled => ?_
    split_ifs
    · exact rests_pure
    · exact rests_deactivate

theorem rests_recover : Rests Rest (recover g) := by
  refine (rests_of_keeps keeps_releaseLease).bind fun _ => ?_
  refine rests_act calm_rest (fun t ht hc => ?_) (rests_of_keeps keeps_keepRetiring)
  have hrest : Rest t := by
    refine ht ?_
    split_ifs at hc <;> exact hc
  split_ifs
  · exact hrest.setActive_none.rest
  · exact hrest

theorem rests_attempt {ε' : Type} (hq : Rests P q) : Rests P (q.attempt : Exec ε' (Except ε α)) := by
  intro e h
  rw [wp_attempt]
  exact hq e h

theorem rests_perform (c : Command) : Rests (Attempting c.gen) (perform c) := by
  have hrest : ∀ t, Uncrossed (Attempting c.gen) t → Uncrossed Rest t := fun t ht hc => (ht hc).rest
  rw [perform]
  cases c.kind
  case deactivate =>
    exact fun t ht => (rests_attempt rests_deactivate).bind (fun _ => rests_pure) t (hrest t ht)
  case readmission =>
    exact fun t ht => (rests_attempt rests_readmission).bind (fun _ => rests_pure) t (hrest t ht)
  case activate | update =>
    refine (rests_attempt rests_activate).bind fun r => ?_
    cases r with
    | ok u => exact rests_pure
    | error y => exact rests_recover

theorem Waits.setRunning (h : Waits g e) : Attempting g (e.setRunning (some ⟨g, false, false⟩)) := by
  obtain ⟨x, hx, hclean, hw⟩ := h
  refine ⟨x, hx, hclean.setRunning fun a ha => ?_, _, rfl, rfl, rfl, fun hwithdrawn => ?_⟩
  · cases ha
    exact ⟨hw.begun, fun _ => hw.served⟩
  · cases hw.withdrawn.symm.trans hwithdrawn

theorem rests_run (c : Command) : Rests (Waits c.gen) (run c) := by
  have hrest : ∀ t, Waits c.gen t → Rest t := fun t ⟨x, _, h, _⟩ => ⟨x, h⟩
  refine .after_keeps calm_waits hrest keeps_turn fun _ => ?_
  refine .after_keeps calm_waits hrest keeps_read fun closed => ?_
  split_ifs
  · refine fun t ht => Keeps.rest (keeps_act fun u hc => ?_) calm_waits hrest ht
    exact ⟨hc, step_of_same rfl rfl rfl (.inl rfl) rfl rfl (withdrawn_setLease rfl)⟩
  · refine rests_act calm_attempting (fun t ht hc => (ht hc).setRunning)
      ((rests_perform c).bind fun _ t ht => ?_)
    have hdone : Uncrossed Rest (t.setRunning none) := fun hc => by
      obtain ⟨x, hx⟩ := ht hc
      exact ⟨x, hx.setRunning nofun⟩
    exact ⟨calm_rest.uncrossed hdone, hdone⟩

theorem Rest.begin (h : Rest e) {c : Command} (hp : e.pending = some c) :
    Waits c.gen (e.setPending none) := by
  obtain ⟨x, hx⟩ := h
  obtain ⟨hlt, hn, hw⟩ := hx.pending c hp
  have hstep : Step e (e.setPending none) := step_of_same rfl rfl rfl (.inr rfl) rfl rfl fun _ => rfl
  have hne : ∀ q, Begun e q → q ≠ c.gen := fun q hb hq => hb.pending c hp hq.symm
  refine ⟨x, fun hxc => ?_, hx.step hstep, ⟨hlt, nofun⟩, hn, hw, ?_, fun a ha => hne _ (hx.running a ha).1⟩
  · exact hne c.gen (hx.safe c.gen (hx.slot c.gen hxc)).1 rfl
  · intro ht
    exact hne c.gen (hx.not_served_of_taken ht).1 rfl

theorem rests_loopOnce : Rests Rest loopOnce := by
  refine (rests_of_keeps keeps_turn).bind fun a t ht => ?_
  rw [wp_bind, wp_read, id]
  cases hp : t.pending with
  | none =>
    have hset : Uncrossed Rest (t.setPending none) :=
      calm_rest.steps ht fun hc => ⟨hc, step_of_same rfl rfl rfl (.inr rfl) rfl rfl fun _ => rfl⟩
    refine ⟨calm_rest.uncrossed hset, ?_⟩
    split_ifs
    · exact hset
    · exact rests_failedServing.bind (fun _ => rests_pure) _ hset
    · refine rests_of_keeps (keeps_question.bind fun b => ?_) _ hset
      split_ifs
      · exact (keeps_act fun _ => steps_close).bind fun _ => keeps_pure
      · exact keeps_pure
  | some c =>
    have hb : Uncrossed (Waits c.gen) (t.setPending none) := fun hc => (ht hc).begin hp
    refine ⟨calm_waits.uncrossed hb, ?_⟩
    change Prog.wp _ _ _ (if t.closed then _ else _) _
    split_ifs
    · refine Keeps.rest ((keeps_act fun u hc => ?_).bind fun _ => keeps_pure) calm_waits
        (fun _ ⟨x, _, h, _⟩ => ⟨x, h⟩) hb
      exact ⟨hc, step_of_same rfl rfl rfl (.inl rfl) rfl rfl (withdrawn_setLease rfl)⟩
    · exact (rests_run c).bind (fun _ => rests_pure) _ hb

theorem rests_shutdown : Rests Rest shutdown := by
  intro e h
  have hrest : ∀ l : List Generation, Keeps (forM l fun g => do
      let e' ← .read id
      if e.active = some g ∨ (e'.leases g).discharged then pure ()
          else releaseLease g : Exec Empty Unit) := by
    refine fun l => keeps_forM fun q _ => keeps_read.bind fun t => ?_
    split_ifs
    · exact keeps_pure
    · exact keeps_releaseLease
  have hnone : Uncrossed (Clean e.active.toList none) (e.setActive none) := fun hc => (h hc).setActive_none
  rw [shutdown, wp_bind, wp_read, id]
  refine ⟨calm_clean.uncrossed hnone, ?_⟩
  cases ha : e.active with
  | none =>
    rw [ha] at hnone hrest
    exact (hrest _).rest calm_clean (fun _ h => h.rest) hnone
  | some g =>
    rw [ha] at hnone hrest
    have hw : Uncrossed (Clean [] none) ((e.setActive none).withdraw g) := by
      intro hc
      have hclean := hnone hc
      have hless : Clean [] none (e.setActive none) := hclean.weaken (by rintro _ ⟨⟩) (by rintro _ ⟨⟩)
      exact hless.withdraw (hclean.safe g mem_cons_self).1 (by rintro ⟨⟩)
    exact ⟨calm_clean.uncrossed hw, (keeps_releaseLease.bind fun _ => hrest _).rest calm_clean
      (fun _ h => h.rest) hw⟩

/-! ### Every moment -/

theorem Between.rest {b : Bool} (h : Between b e) : Uncrossed Rest e := by
  induction h with
  | init => exact fun _ => ⟨none, rfl, nofun, nofun, nofun, nofun, nofun, fun _ _ => ⟨nofun, rfl⟩, nofun⟩
  | other o _ ih => exact calm_rest.steps ih (steps_other o)
  | turned _ hends ih => exact (wp_ends (rests_loopOnce _ ih) hends).1 _ rfl

inductive Moment : Executor → Prop
  | between {b : Bool} {e : Executor} : Between b e → Moment e
  | turning {e e' : Executor} : Between true e → Prog.Visits loopOnce e e' → Moment e'
  | leaving {e e' : Executor} : Between false e → Prog.Visits shutdown e e' → Moment e'

/-- At every moment, unless a taking back and a commit have crossed, what was announced
was authorised, and is as long as it is in the slot. -/
theorem authorised_of_not_crossed (h : Moment e) (hc : e.crossed = false) : Authorised e := by
  cases h with
  | between hb => exact calm_rest.uncrossed hb.rest hc
  | turning hb hv => exact wp_visits (rests_loopOnce _ hb.rest) hv hc
  | leaving hb hv => exact wp_visits (rests_shutdown _ hb.rest) hv hc

end

/-! ### A taking back that comes too late -/

/-- The attempt is in the slot, and another command overtakes it during the redirect: the
sender has chosen it, and `others` do what is left before the announcement. -/
def overtaken (others : List Other) : List Answer :=
  standing ++ [⟨[.send .update], .ok, [], 0, false⟩, ⟨others, .ok, [], 0, false⟩]

theorem moment_of_exec (answers : List Answer) {b : Executor → Bool}
    (h : (loopOnce.exec answers (Executor.init.other (.send .activate))).1.any b) :
    ∃ e, Moment e ∧ b e := by
  obtain ⟨e, he, hb⟩ := List.any_eq_true.mp h
  exact ⟨e, .turning (.other (.send .activate) .init) (visits_of_exec he), hb⟩

/-- Another command overtakes the attempt while it stands up, and its sender takes it back. -/
def overtakenInTime : List Answer :=
  standing.set 7 ⟨[.send .update, .takeBack 0, .cancel 0], .ok, [], 0, false⟩ ++
    List.replicate 3 (answer false)

theorem authorised_after_overtaking : ∃ e, Moment e ∧
    (e.crossed = false ∧ (e.leases 1).withdrawn ∧ e.active = some 2 ∧ e.served = [(2, true)]) ∧
    Authorised e := by
  obtain ⟨t, ht, hb⟩ := between_of_exec .activate overtakenInTime (b := fun t =>
    (loopOnce.exec activated t).1.any fun e =>
      decide (e.crossed = false ∧ (e.leases 1).withdrawn ∧ e.active = some 2 ∧ e.served = [(2, true)]))
    .init (by decide +kernel)
  obtain ⟨e, he, hserved⟩ := List.any_eq_true.mp hb
  have hmoment : Moment e := .turning ht (visits_of_exec he)
  have h := of_decide_eq_true hserved
  exact ⟨e, hmoment, h, authorised_of_not_crossed hmoment h.1⟩

/-- An attempt that was chosen before it committed is withdrawn after its announcement, or
is announced with its lease withdrawn. -/
theorem withdrawn_in_slot_or_before :
    (∃ e, Moment e ∧ e.active = some 1 ∧ e.served = [(1, true)] ∧ (e.leases 1).withdrawn) ∧
      ∃ e, Moment e ∧ e.active = some 1 ∧ e.served = [(1, false)] := by
  constructor
  · obtain ⟨e, he, hb⟩ := between_of_exec .activate (overtaken []) (b := fun t =>
      decide ((t.other (.takeBack 0)).active = some 1 ∧ (t.other (.takeBack 0)).served = [(1, true)] ∧
        ((t.other (.takeBack 0)).leases 1).withdrawn)) .init (by decide +kernel)
    exact ⟨e.other (.takeBack 0), .between (.other _ he), of_decide_eq_true hb⟩
  · obtain ⟨e, he, hb⟩ := moment_of_exec (overtaken [.takeBack 0])
      (b := fun t => decide (t.active = some 1 ∧ t.served = [(1, false)])) (by decide +kernel)
    exact ⟨e, he, of_decide_eq_true hb⟩

end AiiOs.PluginFacility
