import AiiOs.PluginFacility.Custody

/-! What the other goroutines can do to an activation that was announced, as long as no
taking back crosses a commit. -/

namespace AiiOs.PluginFacility
open Lib List

section
variable {e e' : Executor} {g : Generation}

def Served (e : Executor) (g : Generation) : Prop := ∃ b, (g, b) ∈ e.served

/-- What was announced and is in the slot is authorised, and was when it was announced. -/
structure Authorised (e : Executor) : Prop where
  slot : ∀ g, e.active = some g → Served e g → (e.leases g).withdrawn = false
  served : ∀ p ∈ e.served, p.2

def Taken (e : Executor) (g : Generation) : Prop :=
  (∃ t ∈ e.takeBacks, t.gen = g) ∨ ∃ a, e.running = some a ∧ a.committed = false ∧ a.gen = g

structure Step (e e' : Executor) : Prop where
  active : e'.active = e.active
  served : e'.served = e.served
  next : e.next ≤ e'.next
  pending : ∀ c, e'.pending = some c → e.pending = some c ∨ e.next ≤ c.gen ∧ c.gen < e'.next
  running : e'.running = e.running ∨ e'.running = e.running.map fun a => { a with cancelled := true }
  takeBacks : ∀ t ∈ e'.takeBacks, Taken e t.gen
  withdrawn : ∀ g, (e'.leases g).withdrawn → (e.leases g).withdrawn ∨ ∃ t ∈ e.takeBacks, t.gen = g
  marked : ∀ t ∈ e.takeBacks, (∃ t' ∈ e'.takeBacks, t'.gen = t.gen) ∨
    ∀ a, e'.running = some a → a.gen = t.gen → a.cancelled

def Steps (e e' : Executor) : Prop := e'.crossed = false → e.crossed = false ∧ Step e e'

theorem Step.served_iff (h : Step e e') : Served e' g ↔ Served e g := by rw [Served, Served, h.served]

theorem Step.begun (h : Step e e') (hb : Begun e g) : Begun e' g := by
  refine ⟨lt_of_lt_of_le hb.lt h.next, fun c hc => ?_⟩
  rcases h.pending c hc with hc | ⟨hle, -⟩
  · exact hb.pending c hc
  · exact ne_of_gt (lt_of_lt_of_le hb.lt hle)

theorem Step.runs (h : Step e e') {a' : Attempt} (ha : e'.running = some a') : ∃ a, e.running = some a ∧
    a'.gen = a.gen ∧ a'.committed = a.committed ∧ (a.cancelled → a'.cancelled) := by
  rcases h.running with hr | hr
  · exact ⟨a', hr ▸ ha, rfl, rfl, id⟩
  · rw [ha] at hr
    obtain ⟨a, hbefore, rfl⟩ := Option.map_eq_some_iff.mp hr.symm
    exact ⟨a, hbefore, rfl, rfl, fun _ => rfl⟩

variable {a : Attempt} {P : Executor → Prop}

theorem Step.runs_on (h : Step e e') (ha : e.running = some a) : ∃ a', e'.running = some a' := by
  rcases h.running with hr | hr
  · exact ⟨a, hr.trans ha⟩
  · exact ⟨_, by rw [hr, ha]; rfl⟩

theorem step_of_same (hactive : e'.active = e.active) (hserved : e'.served = e.served)
    (hnext : e'.next = e.next)
    (hpending : e'.pending = e.pending ∨ e'.pending = none) (hrunning : e'.running = e.running)
    (htakeBacks : e'.takeBacks = e.takeBacks)
    (hwithdrawn : ∀ g, (e'.leases g).withdrawn = (e.leases g).withdrawn) :
    Step e e' where
  active := hactive
  served := hserved
  next := Nat.le_of_eq hnext.symm
  pending c hc := by
    rcases hpending with hp | hp
    · exact .inl (hp ▸ hc)
    · cases hp.symm.trans hc
  running := .inl hrunning
  takeBacks t ht := .inl ⟨t, htakeBacks ▸ ht, rfl⟩
  withdrawn g hg := .inl (hwithdrawn g ▸ hg)
  marked t ht := .inl ⟨t, htakeBacks.symm ▸ ht, rfl⟩

theorem withdrawn_setLease {l : Lease} (h : l.withdrawn = (e.leases g).withdrawn) (g' : Generation) :
    ((e.setLease g l).leases g').withdrawn = (e.leases g').withdrawn := by
  rw [leases_setLease]
  split_ifs with heq
  · rw [heq, h]
  · rfl

theorem step_drop : Step e e.drop := by
  rw [Executor.drop]
  cases hp : e.pending with
  | none => exact step_of_same rfl rfl rfl (.inl rfl) rfl rfl fun _ => rfl
  | some c => exact step_of_same rfl rfl rfl (.inr rfl) rfl rfl (withdrawn_setLease rfl)

theorem Step.choose (h : Step e e') {a : Attempt} (ha : e.running = some a) (hr : e'.running = e.running)
    (hc : a.committed = false) : Step e (e'.choose a) where
  active := h.active
  served := h.served
  next := h.next
  pending := h.pending
  running := .inl hr
  takeBacks t ht := by
    rcases mem_append.mp ht with ht | ht
    · exact h.takeBacks t ht
    · cases mem_singleton.mp ht
      exact .inr ⟨a, ha, hc, rfl⟩
  withdrawn := h.withdrawn
  marked t ht := (h.marked t ht).imp_left fun ⟨t', ht', hg⟩ => ⟨t', mem_append_left _ ht', hg⟩

theorem steps_choose (h : Step e e') (hcrossed : e'.crossed = e.crossed) (ha : e.running = some a)
    (hr : e'.running = e.running) : Steps e (e'.choose a) := by
  intro hc
  rw [Executor.choose, Bool.or_eq_false_iff, hcrossed] at hc
  exact ⟨hc.1, h.choose ha hr hc.2⟩

theorem drop_fields : e.drop.crossed = e.crossed ∧ e.drop.running = e.running ∧ e.drop.next = e.next ∧
    e.drop.takeBacks = e.takeBacks := by
  rw [Executor.drop]
  cases e.pending <;> exact ⟨rfl, rfl, rfl, rfl⟩

theorem steps_send (kind : CommandKind) : Steps e (e.send kind) := by
  rw [Executor.send]
  split_ifs
  · exact fun hc => ⟨hc, step_of_same rfl rfl rfl (.inl rfl) rfl rfl fun _ => rfl⟩
  · have hd := step_drop (e := e)
    obtain ⟨hcrossed, hrunning, -, -⟩ := drop_fields (e := e)
    have hsent : Step e { e.drop with pending := some ⟨kind, e.next⟩, next := e.next + 1 } := by
      refine ⟨hd.active, hd.served, Nat.le_succ _, fun c hc => ?_, hd.running, hd.takeBacks,
        hd.withdrawn, hd.marked⟩
      cases hc
      exact .inr ⟨le_rfl, Nat.lt_succ_self _⟩
    have hplain : Steps e { e.drop with pending := some ⟨kind, e.next⟩, next := e.next + 1 } :=
      fun hc => ⟨hcrossed ▸ hc, hsent⟩
    cases hr : e.running with
    | none => exact hplain
    | some a =>
      change Steps e (if kind ≠ .readmission ∧ a.committed = false then _ else _)
      split_ifs
      · exact steps_choose hsent hcrossed hr hrunning
      · exact hplain

theorem steps_drop : Steps e e.drop := fun hc => ⟨drop_fields.1 ▸ hc, step_drop⟩

theorem steps_self : Steps e e := fun hc => ⟨hc, step_of_same rfl rfl rfl (.inl rfl) rfl rfl fun _ => rfl⟩

theorem steps_withdrawGen : Steps e (e.withdrawGen g) := by
  rw [Executor.withdrawGen]
  cases hr : e.running with
  | none =>
    split_ifs
    · exact steps_drop
    · exact steps_self
  | some a =>
    change Steps e (if a.gen = g then _ else if _ then _ else _)
    split_ifs
    · exact steps_choose (step_of_same rfl rfl rfl (.inl rfl) rfl rfl fun _ => rfl) rfl hr rfl
    · exact steps_drop
    · exact steps_self

theorem steps_close : Steps e e.close := by
  rw [Executor.close]
  split_ifs
  · exact steps_self
  · have hd := step_drop (e := e)
    obtain ⟨hcrossed, hrunning, -, -⟩ := drop_fields (e := e)
    have hclosed : Step e { e.drop with closed := true } :=
      ⟨hd.active, hd.served, hd.next, hd.pending, hd.running, hd.takeBacks, hd.withdrawn, hd.marked⟩
    cases hr : e.running with
    | none => exact fun hc => ⟨hcrossed ▸ hc, hclosed⟩
    | some a => exact steps_choose hclosed hcrossed hr hrunning

theorem steps_takeBack (i : Nat) : Steps e (e.takeBack i) := by
  rw [Executor.takeBack]
  cases ht : e.takeBacks[i]? with
  | none => exact steps_self
  | some t =>
    have hin : t ∈ e.takeBacks := mem_of_getElem? ht
    refine fun hc => ⟨hc, rfl, rfl, le_rfl, fun _ hp => .inl hp, .inl rfl, fun t' ht' => ?_, fun g' hg => ?_,
      fun t' ht' => .inl ?_⟩
    · rcases mem_or_eq_of_mem_set ht' with ht' | rfl
      · exact .inl ⟨t', ht', rfl⟩
      · exact .inl ⟨t, hin, rfl⟩
    · change ((e.withdraw t.gen).leases g').withdrawn at hg
      rw [Executor.withdraw, leases_setLease] at hg
      split_ifs at hg with heq
      · exact .inr ⟨t, hin, heq.symm⟩
      · exact .inl hg
    · obtain ⟨j, hj⟩ := mem_iff_getElem?.mp ht'
      by_cases hij : i = j
      · subst hij
        cases ht.symm.trans hj
        refine ⟨{ t with withdrawn := true }, mem_iff_getElem?.mpr ⟨i, ?_⟩, rfl⟩
        exact getElem?_set_self (List.getElem?_eq_some_iff.mp ht).1
      · refine ⟨t', mem_iff_getElem?.mpr ⟨j, ?_⟩, rfl⟩
        rw [getElem?_set_ne hij]
        exact hj

theorem steps_cancelTakenBack (i : Nat) : Steps e (e.cancelTakenBack i) := by
  rw [Executor.cancelTakenBack]
  split
  case h_2 => exact steps_self
  case h_1 g ht =>
    have hleft : ∀ t ∈ e.takeBacks, t ∈ e.takeBacks.eraseIdx i ∨ t.gen = g := by
      intro t hin
      obtain ⟨j, hj⟩ := mem_iff_getElem?.mp hin
      by_cases hji : j = i
      · subst hji
        cases ht.symm.trans hj
        exact .inr rfl
      · exact .inl (mem_eraseIdx_iff_getElem?.mpr ⟨j, hji, hj⟩)
    have hwas : ∀ t ∈ e.takeBacks.eraseIdx i, Taken e t.gen :=
      fun t hin => .inl ⟨t, mem_of_mem_eraseIdx hin, rfl⟩
    split_ifs with hrun
    · refine fun hc => ⟨hc, rfl, rfl, le_rfl, fun _ hp => .inl hp, .inr rfl, hwas, fun _ hg =>
        .inl hg, fun t hin => ?_⟩
      refine (hleft t hin).imp (fun hin => ⟨t, hin, rfl⟩) fun _ a ha _ => ?_
      obtain ⟨b, -, rfl⟩ := Option.map_eq_some_iff.mp ha
      rfl
    · refine fun hc => ⟨hc, rfl, rfl, le_rfl, fun _ hp => .inl hp, .inl rfl, hwas, fun _ hg =>
        .inl hg, fun t hin => ?_⟩
      refine (hleft t hin).imp (fun hin => ⟨t, hin, rfl⟩) fun hg a ha hgen => absurd ?_ hrun
      rw [Option.any_eq_true]
      exact ⟨a, ha, decide_eq_true (hgen.trans hg)⟩

theorem steps_cancel : Steps e e.cancel := fun hc =>
  ⟨hc, rfl, rfl, le_rfl, fun _ hp => .inl hp, .inr rfl, fun t ht => .inl ⟨t, ht, rfl⟩, fun _ hg => .inl hg,
    fun t ht => .inl ⟨t, ht, rfl⟩⟩

theorem steps_other (o : Other) : Steps e (e.other o) := by
  cases o with
  | send kind => exact steps_send kind
  | withdraw g => exact steps_withdrawGen
  | close => exact steps_close
  | takeBack i => exact steps_takeBack i
  | cancel i => exact steps_cancelTakenBack i
  | parentDone => exact steps_cancel
  | release g keep =>
    rw [Executor.other]
    split_ifs
    · exact fun hc => ⟨hc, step_of_same rfl rfl rfl (.inl rfl) rfl rfl (withdrawn_setLease rfl)⟩
    · exact steps_self

/-! ### What stays -/

/-- The leases in `safe` are authorised if they were announced; that of the slot is one
of them. -/
structure Clean (safe : List Generation) (x : Option Generation) (e : Executor) : Prop where
  active : e.active = x
  slot : ∀ g, x = some g → g ∈ safe
  safe : ∀ p ∈ safe, Begun e p ∧ (Served e p → (e.leases p).withdrawn = false)
  served : ∀ p ∈ e.served, p.2
  takeBacks : ∀ t ∈ e.takeBacks, Begun e t.gen ∧ ¬ Served e t.gen
  running : ∀ a, e.running = some a → Begun e a.gen ∧ (a.committed = false → ¬ Served e a.gen)
  later : ∀ g, e.next ≤ g → ¬ Served e g ∧ (e.leases g).withdrawn = false
  pending : ∀ c, e.pending = some c → c.gen < e.next ∧ ¬ Served e c.gen ∧ (e.leases c.gen).withdrawn = false

/-- The attempt that runs is not committed, and if its lease is withdrawn, its context is
cancelled or going to be. -/
def Live (g : Generation) (e : Executor) : Prop :=
  ∃ a, e.running = some a ∧ a.gen = g ∧ a.committed = false ∧
    ((e.leases g).withdrawn → a.cancelled ∨ ∃ t ∈ e.takeBacks, t.gen = g)

structure Waiting (g : Generation) (e : Executor) : Prop where
  begun : Begun e g
  served : ¬ Served e g
  withdrawn : (e.leases g).withdrawn = false
  taken : ¬ Taken e g
  running : ∀ a, e.running = some a → a.gen ≠ g

variable {safe : List Generation} {x : Option Generation}

section
variable (h : Clean safe x e)
include h

theorem Clean.authorised : Authorised e where
  slot g hg hs := (h.safe g (h.slot g (h.active.symm.trans hg))).2 hs
  served := h.served

theorem Clean.not_served_of_taken (ht : Taken e g) : Begun e g ∧ ¬ Served e g := by
  rcases ht with ⟨t, ht, rfl⟩ | ⟨a, ha, hc, rfl⟩
  · exact h.takeBacks t ht
  · exact (h.running a ha).imp_right fun hr => hr hc

theorem Clean.withdrawn (hs : Step e e') (hw : (e'.leases g).withdrawn)
    (hg : ¬ Begun e g ∨ Served e g) : (e.leases g).withdrawn := by
  rcases hs.withdrawn g hw with hw | ht
  · exact hw
  · have htaken := h.not_served_of_taken (.inl ht)
    exact (hg.elim (fun hb => hb htaken.1) htaken.2).elim

theorem Clean.step (hs : Step e e') : Clean safe x e' where
  active := hs.active.trans h.active
  slot := h.slot
  safe p hp := by
    refine ⟨hs.begun (h.safe p hp).1, fun hserved => ?_⟩
    have hbefore := hs.served_iff.mp hserved
    rw [Bool.eq_false_iff]
    intro hw
    exact Bool.eq_false_iff.mp ((h.safe p hp).2 hbefore) (h.withdrawn hs hw (.inr hbefore))
  served := hs.served ▸ h.served
  takeBacks t ht := by
    obtain ⟨hb, hn⟩ := h.not_served_of_taken (hs.takeBacks t ht)
    exact ⟨hs.begun hb, mt hs.served_iff.mp hn⟩
  running a' ha' := by
    obtain ⟨a, ha, hgen, hcommitted, -⟩ := hs.runs ha'
    obtain ⟨hb, hn⟩ := h.running a ha
    rw [hgen, hcommitted]
    exact ⟨hs.begun hb, fun hc => mt hs.served_iff.mp (hn hc)⟩
  later g hg := by
    obtain ⟨hn, hw⟩ := h.later g (Nat.le_trans hs.next hg)
    refine ⟨mt hs.served_iff.mp hn, Bool.eq_false_iff.mpr fun hw' => Bool.eq_false_iff.mp hw ?_⟩
    exact h.withdrawn hs hw' (.inl fun hb => absurd hb.lt (Nat.not_lt.mpr (Nat.le_trans hs.next hg)))
  pending c hc := by
    have hfresh : ¬ Begun e c.gen ∧ c.gen < e'.next ∧ ¬ Served e c.gen ∧
        (e.leases c.gen).withdrawn = false := by
      rcases hs.pending c hc with hp | ⟨h1, h2⟩
      · obtain ⟨hlt, hrest⟩ := h.pending c hp
        exact ⟨fun hb => hb.pending c hp rfl, Nat.lt_of_lt_of_le hlt hs.next, hrest⟩
      · exact ⟨fun hb => absurd hb.lt (Nat.not_lt.mpr h1), h2, h.later c.gen h1⟩
    obtain ⟨hb, hlt, hn, hw⟩ := hfresh
    refine ⟨hlt, mt hs.served_iff.mp hn, Bool.eq_false_iff.mpr fun hw' => Bool.eq_false_iff.mp hw ?_⟩
    exact h.withdrawn hs hw' (.inl hb)

end

theorem Live.step (h : Live g e) (hs : Step e e') : Live g e' := by
  obtain ⟨a, ha, hgen, hc, hw⟩ := h
  obtain ⟨a', ha'⟩ := hs.runs_on ha
  obtain ⟨b, hb, hgen', hc', hcancelled⟩ := hs.runs ha'
  cases ha.symm.trans hb
  refine ⟨a', ha', hgen'.trans hgen, hc'.trans hc, fun hw' => ?_⟩
  have hbefore : a.cancelled ∨ ∃ t ∈ e.takeBacks, t.gen = g := (hs.withdrawn g hw').elim hw .inr
  rcases hbefore with hcan | ⟨t, ht, htg⟩
  · exact .inl (hcancelled hcan)
  · rcases hs.marked t ht with ⟨t', ht', hg'⟩ | hm
    · exact .inr ⟨t', ht', hg'.trans htg⟩
    · exact .inl (hm a' ha' ((hgen'.trans hgen).trans htg.symm))

theorem Waiting.step (h : Waiting g e) (hs : Step e e') : Waiting g e' where
  begun := hs.begun h.begun
  served := mt hs.served_iff.mp h.served
  withdrawn := by
    rw [Bool.eq_false_iff]
    intro hw
    rcases hs.withdrawn g hw with hw | ht
    · exact Bool.eq_false_iff.mp h.withdrawn hw
    · exact h.taken (.inl ht)
  taken := by
    rintro (⟨t, ht, rfl⟩ | ⟨a', ha', -, rfl⟩)
    · exact h.taken (hs.takeBacks t ht)
    · obtain ⟨a, ha, hgen, -⟩ := hs.runs ha'
      exact h.running a ha hgen.symm
  running a' ha' := by
    obtain ⟨a, ha, hgen, -⟩ := hs.runs ha'
    rw [hgen]
    exact h.running a ha

/-! ### Programs that leave it alone -/

def Uncrossed (P : Executor → Prop) (e : Executor) : Prop := e.crossed = false → P e

/-- A condition that the others cannot end. -/
structure Calm (P : Executor → Prop) : Prop where
  step : ∀ {e e' : Executor}, Step e e' → P e → P e'
  authorised : ∀ {e : Executor}, P e → Authorised e

theorem Calm.steps (hP : Calm P) (h : Uncrossed P e) (hs : Steps e e') : Uncrossed P e' :=
  fun hc => hP.step (hs hc).2 (h (hs hc).1)

theorem Calm.uncrossed (hP : Calm P) (h : Uncrossed P e) :
    Uncrossed Authorised e := fun hc => hP.authorised (h hc)

theorem calm_clean : Calm (Clean safe x) := ⟨fun hs h => h.step hs, Clean.authorised⟩

def Keeps {ε α : Type} (p : Exec ε α) : Prop := ∀ (P : Executor → Prop), Calm P → ∀ e, Uncrossed P e →
  p.wp (Uncrossed Authorised) (fun _ => Uncrossed P) (fun _ => Uncrossed P) e

variable {ε α β : Type}

theorem keeps_pure {a : α} : Keeps (pure a : Exec ε α) := fun _ _ _ h => h

theorem keeps_fail {y : ε} : Keeps (.fail y : Exec ε α) := fun _ _ _ h => h

theorem keeps_read {f : Executor → α} : Keeps (Prog.read f : Exec ε α) := fun _ _ _ h => h

theorem keeps_act {f : Executor → Executor} (hf : ∀ e, Steps e (f e)) : Keeps (.act f : Exec ε Unit) :=
  fun _ hP e h => ⟨hP.uncrossed (hP.steps h (hf e)), hP.steps h (hf e)⟩

theorem Keeps.bind {p : Exec ε α} {k : α → Exec ε β} (hp : Keeps p) (hk : ∀ a, Keeps (k a)) :
    Keeps (p >>= k) := by
  intro P hP e h
  rw [Prog.wp_bind]
  exact Prog.wp_post (hp P hP e h) fun a t ht => hk a P hP t ht

theorem keeps_forM {γ : Type} {l : List γ} {f : γ → Exec ε Unit} (hf : ∀ a ∈ l, Keeps (f a)) :
    Keeps (forM l f) := by
  induction l with
  | nil => exact keeps_pure
  | cons a l ih => exact (hf a mem_cons_self).bind fun _ => ih fun b hb => hf b (mem_cons_of_mem _ hb)

theorem keeps_turn : Keeps (turn : Exec ε Answer) := by
  intro P hP e h a
  exact (keeps_forM fun o _ => keeps_act fun _ => steps_other o).bind (fun _ => keeps_pure) P hP e h

theorem keeps_question : Keeps (question : Exec ε Bool) := keeps_turn.bind fun _ => keeps_pure

theorem keeps_releaseLease : Keeps (releaseLease g : Exec ε Unit) :=
  keeps_turn.bind fun _ => keeps_act fun _ hc =>
    ⟨hc, step_of_same rfl rfl rfl (.inl rfl) rfl rfl (withdrawn_setLease rfl)⟩

theorem steps_setRetiring (l : List Generation) : Steps e (e.setRetiring l) := fun hc =>
  ⟨hc, step_of_same rfl rfl rfl (.inl rfl) rfl rfl fun _ => rfl⟩

theorem keeps_keepRetiring : Keeps (keepRetiring g : Exec ε Unit) := by
  refine keeps_turn.bind fun _ => keeps_read.bind fun t => ?_
  split_ifs
  · exact keeps_pure
  · exact keeps_act fun _ => steps_setRetiring _

theorem keeps_retirementPending : Keeps (retirementPending : Exec ε Bool) :=
  keeps_turn.bind fun _ => (keeps_act fun e =>
    steps_setRetiring (e.retiring.filter fun g => !(e.leases g).discharged)).bind fun _ => keeps_read

theorem keeps_call : Keeps call := by
  refine keeps_turn.bind fun a => ?_
  cases a.outcome with
  | ok => exact keeps_pure
  | error => exact keeps_pure
  | panic => exact keeps_fail

theorem keeps_optionalCall : Keeps optionalCall := by
  refine keeps_question.bind fun b => ?_
  split_ifs
  · exact keeps_call
  · exact keeps_pure

theorem keeps_hold {names : List (List Char)} : Keeps (.act (Executor.hold g names) : Exec ε Unit) :=
  keeps_act fun _ hc => ⟨hc, step_of_same rfl rfl rfl (.inl rfl) rfl rfl (withdrawn_setLease rfl)⟩

theorem keeps_admitStage : Keeps (admitStage g) := by
  refine keeps_question.bind fun b => ?_
  split_ifs
  · refine keeps_call.bind fun ok => ?_
    split_ifs
    · exact keeps_hold.bind fun _ => keeps_pure
    · exact keeps_pure
  · exact keeps_pure

theorem keeps_startStage : Keeps (startStage g) := by
  refine keeps_turn.bind fun a => keeps_hold.bind fun _ => ?_
  cases a.outcome with
  | ok => exact keeps_hold.bind fun _ => keeps_pure
  | error => exact keeps_pure
  | panic => exact keeps_fail

theorem steps_lose : Steps e (lose x e) := by
  cases x with
  | none => exact steps_self
  | some p =>
    change Steps e (if (e.leases p).held = [] then e else { e with lost := some p })
    split_ifs
    · exact steps_self
    · exact fun hc => ⟨hc, step_of_same rfl rfl rfl (.inl rfl) rfl rfl fun _ => rfl⟩

theorem keeps_redirect : Keeps (redirect x) := by
  refine keeps_turn.bind fun a => ?_
  cases a.outcome with
  | ok => exact keeps_pure
  | error => exact keeps_pure
  | panic => exact (keeps_act fun _ => steps_lose).bind fun _ => keeps_fail

end

end AiiOs.PluginFacility
