import AiiOs.Updates.Swap

/-! A swap that is cut off and the boots after it. While the new program has not finished
a boot the update is pending; it ends with the old program back or with a healthy boot. -/

namespace AiiOs.Updates
open Lib List Option Prog

section
variable {host : Host} {owner : Name} {rel : Release} {d₀ d : Install}

/-! ### Where an update stands -/

structure Ready (host : Host) (rel : Release) (d₀ : Install) : Prop where
  unclaimed : d₀.record = none
  other : host.sha256hex d₀.program ≠ host.sha256hex rel.newBinary

structure Before (host : Host) (rel : Release) (d₀ d : Install) : Prop where
  program : d.program = d₀.program
  record : ∀ p, d.record = some p → p.newSHA256 = host.sha256hex rel.newBinary

/-- The new program stands and has not finished a boot; `a` boots are counted. -/
structure Pending (host : Host) (owner : Name) (rel : Release) (d₀ : Install) (a : Nat)
    (d : Install) : Prop where
  program : d.program = rel.newBinary
  record : d.record = some { pendingOf host owner rel d₀ with attempts := a }
  backup : d.backup = some d₀.program
  marker : d.marker = false
  beside : ∀ f ∈ rel.beside, d.beside f.name = some f.data ∨ d.beside f.name = d₀.beside f.name
  besideBackup : ∀ f ∈ rel.beside, ∀ y, d₀.beside f.name = some y → d.besideBackup f.name = some y

structure RolledBack (host : Host) (owner : Name) (rel : Release) (d₀ d : Install) : Prop where
  program : d.program = d₀.program
  record : ∀ p, d.record = some p → ∃ a, p = { pendingOf host owner rel d₀ with attempts := a }
  beside : ∀ f ∈ rel.beside, d.beside f.name = d₀.beside f.name
  besideBackup : ∀ f ∈ rel.beside, ∀ x y, d.besideBackup f.name = some x → d₀.beside f.name = some y → x = y

structure Healthy (rel : Release) (d : Install) : Prop where
  program : d.program = rel.newBinary
  marker : d.marker

/-! ### Steps that leave the program alone -/

/-- A predicate that the removals at the end of an update keep. -/
structure Retirable (P : Install → Prop) : Prop where
  besideBackup : ∀ d n, P d → P (d.setBesideBackup n none)
  backup : ∀ d, P d → P (d.setBackup none)
  record : ∀ d, P d → P (d.setRecord none)

variable {pend : UpdatePending}

theorem Retirable.step {P : Install → Prop} (h : Retirable P) {f : Install → Install}
    (hf : f ∈ retirements host pend) (hd : P d) : P (f d) := by
  rw [retirements, mem_append] at hf
  rcases hf with hf | hf
  · obtain ⟨n, -, rfl⟩ := List.mem_map.mp hf
    exact h.besideBackup d n hd
  · simp only [mem_cons, not_mem_nil, or_false] at hf
    rcases hf with rfl | rfl
    · exact h.backup d hd
    · exact h.record d hd

variable {P : Install → Prop} {E : Empty → Install → Prop}

theorem retire_keeps (h : Retirable P) (hd : P d) : (retire host pend).Keeps P d :=
  Prog.keeps_forM hd fun _ hf _ ht => Prog.keeps_act (h.step hf ht)

theorem restoreBeside_keeps (h : ∀ d n v, P d → P (d.setBeside n v)) (pend : UpdatePending) (hd : P d) :
    (restoreBeside host pend).Keeps P d := by
  refine Prog.keeps_forM hd fun b _ t ht => ?_
  rw [restoreOne, Prog.Keeps, wp_bind, wp_read]
  cases restoration host b (t.beside b.name) (t.besideBackup b.name) with
  | none => exact ht
  | some v => exact Prog.keeps_act (h t _ _ ht)

theorem settleCutOff_keeps (hd : P d) (h : (restoreBeside host pend).Keeps P d) :
    (settleCutOff host pend).Keeps P d := by
  rw [Prog.Keeps, settleCutOff, wp_bind, wp_read]
  split_ifs
  · exact hd
  · exact h

theorem healthy_retirable : Retirable (Healthy rel) where
  besideBackup _ _ h := ⟨h.program, h.marker⟩
  backup _ h := ⟨h.program, h.marker⟩
  record _ h := ⟨h.program, h.marker⟩

theorem Healthy.setBeside (h : Healthy rel d) (n : Name) (v : Option Bytes) : Healthy rel (d.setBeside n v) :=
  ⟨h.program, h.marker⟩

/-! ### The files beside the program -/

def besideSwapOf (host : Host) (d₀ : Install) (f : InstalledFile) : BesideSwap :=
  ⟨f.name, ((d₀.beside f.name).map host.sha256hex).getD [], host.sha256hex f.data⟩

variable {f : InstalledFile} {kept : Option Bytes} {p : UpdatePending}

theorem restoration_back (hplain : isFileName f.name) {cur : Option Bytes}
    (hcur : cur = some f.data ∨ cur = d₀.beside f.name)
    (hkept : ∀ y, d₀.beside f.name = some y → kept = some y) :
    (restoration host (besideSwapOf host d₀ f) cur kept).getD cur = d₀.beside f.name := by
  cases hold : d₀.beside f.name with
  | none =>
    rcases hcur with rfl | rfl
    · simp [restoration, besideSwapOf, hplain, hold]
    · simp [restoration, besideSwapOf, hold]
  | some y =>
    have hne := host.sha256hex_ne y
    obtain rfl := hkept y hold
    rcases hcur with rfl | hcur
    · simp [restoration, besideSwapOf, hplain, hold, hne, Option.filter]
    · rw [hcur, hold, restoration]
      split_ifs <;> simp_all [besideSwapOf, Option.filter]

theorem restoration_stays (hkept : ∀ x y, kept = some x → d₀.beside f.name = some y → x = y) :
    (restoration host (besideSwapOf host d₀ f) (d₀.beside f.name) kept).getD (d₀.beside f.name) =
      d₀.beside f.name := by
  cases hold : d₀.beside f.name with
  | none => simp [restoration, besideSwapOf, hold]
  | some y =>
    have hne := host.sha256hex_ne y
    rw [restoration]
    split_ifs with h1 h2
    · rfl
    · simp [besideSwapOf, hold, hne] at h2
    · cases kept with
      | none => rfl
      | some x =>
        obtain rfl := hkept x y rfl hold
        simp [besideSwapOf, hold, Option.filter]

variable {C : Install → Prop}

theorem restoreOne_beside (b : BesideSwap) {Q : Install → Prop}
    (h : ∀ v, (restoration host b (d.beside b.name) (d.besideBackup b.name)).getD
      (d.beside b.name) = v → C (d.setBeside b.name v) ∧ Q (d.setBeside b.name v)) :
    (restoreOne host b).wp C (fun _ => Q) E d := by
  rw [restoreOne, wp_bind, wp_read]
  cases hr : restoration host b (d.beside b.name) (d.besideBackup b.name) with
  | none =>
    have hq := (h _ rfl).2
    rw [hr, getD_none, Install.setBeside, Function.update_eq_self] at hq
    exact hq
  | some v =>
    have hv := h v (by rw [hr, getD_some])
    exact hv

variable {a : Nat}

theorem restoreBeside_rule {I : List BesideSwap → Install → Prop} (hd : I [] d)
    (hstep : ∀ l f t, f ∈ rel.beside → I l t →
      ∀ v, (restoration host (besideSwapOf host d₀ f) (t.beside f.name)
      (t.besideBackup f.name)).getD (t.beside f.name) = v → C (t.setBeside f.name v) ∧
        I (l ++ [besideSwapOf host d₀ f]) (t.setBeside f.name v)) :
    (restoreBeside host { pendingOf host owner rel d₀ with attempts := a }).wp C
      (fun _ => I (rel.beside.map (besideSwapOf host d₀))) E d := by
  refine wp_forM hd ?_
  rintro l₁ b l₂ t hl ht
  have hb : b ∈ rel.beside.map (besideSwapOf host d₀) := hl ▸ mem_append_right _ mem_cons_self
  obtain ⟨f, hf, rfl⟩ := List.mem_map.mp hb
  exact restoreOne_beside _ fun v hv => hstep l₁ f t hf ht v hv

theorem setBeside_back {t : Install} (n m : Name) :
    (t.setBeside n (d₀.beside n)).beside m = if m = n then d₀.beside m else t.beside m := by
  change Function.update t.beside n (d₀.beside n) m = _
  rw [Function.update_apply]
  split_ifs with h
  · rw [h]
  · rfl

theorem Pending.restoreBeside_wp (h : Pending host owner rel d₀ a d) :
    (restoreBeside host { pendingOf host owner rel d₀ with attempts := a }).wp (Pending host owner rel d₀ a)
      (fun _ t => Pending host owner rel d₀ a t ∧ ∀ f ∈ rel.beside, t.beside f.name =
          d₀.beside f.name) E d := by
  refine wp_post (restoreBeside_rule (I := fun l t => Pending host owner rel d₀ a t ∧
    ∀ b ∈ l, t.beside b.name = d₀.beside b.name) ⟨h, nofun⟩ ?_) ?_
  · rintro l f t hf ⟨ht, hdone⟩ v hv
    rw [restoration_back (rel.plain f hf) (ht.beside f hf) (ht.besideBackup f hf)] at hv
    subst hv
    have hpending : Pending host owner rel d₀ a (t.setBeside f.name (d₀.beside f.name)) := by
      refine ⟨ht.program, ht.record, ht.backup, ht.marker, fun g hg => ?_, ht.besideBackup⟩
      rw [setBeside_back]
      split_ifs
      · exact .inr rfl
      · exact ht.beside g hg
    refine ⟨hpending, hpending, fun b hb => ?_⟩
    rw [setBeside_back]
    split_ifs with hn
    · rfl
    · rcases mem_append.mp hb with hb | hb
      · exact hdone b hb
      · exact absurd (congrArg BesideSwap.name (mem_singleton.mp hb)) hn
  · rintro _ t ⟨ht, hdone⟩
    refine ⟨ht, fun f hf => hdone (besideSwapOf host d₀ f) ?_⟩
    exact List.mem_map_of_mem hf

theorem RolledBack.restoreBeside_keeps (h : RolledBack host owner rel d₀ d) :
    (restoreBeside host { pendingOf host owner rel d₀ with attempts := a }).Keeps
      (RolledBack host owner rel d₀) d := by
  refine restoreBeside_rule (I := fun _ => RolledBack host owner rel d₀) h ?_
  intro l f t hf ht v hv
  rw [ht.beside f hf, restoration_stays (ht.besideBackup f hf)] at hv
  subst hv
  have hback : RolledBack host owner rel d₀ (t.setBeside f.name (d₀.beside f.name)) := by
    refine ⟨ht.program, ht.record, fun g hg => ?_, ht.besideBackup⟩
    rw [setBeside_back]
    split_ifs
    · rfl
    · exact ht.beside g hg
  exact ⟨hback, hback⟩

/-! ### While the old program stands -/

/-- A predicate on installs with the old program that the steps of a boot keep. -/
structure Settling (host : Host) (rel : Release) (d₀ : Install) (P : Install → Prop) : Prop
    extends Retirable P where
  before : ∀ d, P d → Before host rel d₀ d
  count : ∀ d p, P d → d.record = some p → P (d.setRecord (some { p with attempts := 1 }))
  marker : ∀ d v, P d → P (d.setMarker v)
  retiredMarker : ∀ d v, P d → P (d.setRetiredMarker v)
  incomplete : ∀ d v, P d → P (d.setIncomplete v)
  restore : ∀ d p, P d → d.record = some p → (restoreBeside host p).Keeps P d

theorem Before.setBeside (h : Before host rel d₀ d) (n : Name) (v : Option Bytes) :
    Before host rel d₀ (d.setBeside n v) := ⟨h.program, h.record⟩

theorem before_settling : Settling host rel d₀ (Before host rel d₀) where
  besideBackup _ _ h := ⟨h.program, h.record⟩
  backup _ h := ⟨h.program, h.record⟩
  record _ h := ⟨h.program, nofun⟩
  before _ h := h
  count d p h hp := by
    refine ⟨h.program, fun q hq => ?_⟩
    cases hq
    exact h.record p hp
  marker _ _ h := ⟨h.program, h.record⟩
  retiredMarker _ _ h := ⟨h.program, h.record⟩
  incomplete _ _ h := ⟨h.program, h.record⟩
  restore _ p h _ := restoreBeside_keeps (fun _ n v h => h.setBeside n v) p h

theorem rolledBack_settling : Settling host rel d₀ (RolledBack host owner rel d₀) where
  besideBackup d n h := by
    refine ⟨h.program, h.record, h.beside, fun f hf x y hx hy => ?_⟩
    change Function.update d.besideBackup n none f.name = some x at hx
    rw [Function.update_apply] at hx
    split_ifs at hx
    exact h.besideBackup f hf x y hx hy
  backup _ h := ⟨h.program, h.record, h.beside, h.besideBackup⟩
  record _ h := ⟨h.program, nofun, h.beside, h.besideBackup⟩
  before _ h := by
    refine ⟨h.program, fun p hp => ?_⟩
    obtain ⟨a, rfl⟩ := h.record p hp
    rfl
  count d p h hp := by
    obtain ⟨a, rfl⟩ := h.record p hp
    refine ⟨h.program, fun q hq => ?_, h.beside, h.besideBackup⟩
    cases hq
    exact ⟨1, rfl⟩
  marker _ _ h := ⟨h.program, h.record, h.beside, h.besideBackup⟩
  retiredMarker _ _ h := ⟨h.program, h.record, h.beside, h.besideBackup⟩
  incomplete _ _ h := ⟨h.program, h.record, h.beside, h.besideBackup⟩
  restore _ p h hp := by
    obtain ⟨a, rfl⟩ := h.record p hp
    exact h.restoreBeside_keeps

theorem Settling.failed (h : Settling host rel d₀ P) (G : Option (Name × Hash) → Prop) :
    Settling host rel d₀ fun d => P d ∧ G d.failed where
  besideBackup d n hd := ⟨h.besideBackup d n hd.1, hd.2⟩
  backup d hd := ⟨h.backup d hd.1, hd.2⟩
  record d hd := ⟨h.record d hd.1, hd.2⟩
  before d hd := h.before d hd.1
  count d p hd hp := ⟨h.count d p hd.1 hp, hd.2⟩
  marker d v hd := ⟨h.marker d v hd.1, hd.2⟩
  retiredMarker d v hd := ⟨h.retiredMarker d v hd.1, hd.2⟩
  incomplete d v hd := ⟨h.incomplete d v hd.1, hd.2⟩
  restore d p hd hp := wp_and (h.restore d p hd.1 hp)
    (restoreBeside_keeps (P := fun d => G d.failed) (fun _ _ _ h => h) p hd.2)

/-! ### The check of a boot -/

theorem claimOf_eq_some : claimOf owner d = some p ↔ d.record = some p ∧ p.owner = owner := by
  rw [claimOf, filter_eq_some_iff, decide_eq_true_eq]

theorem checkRollback_rule {Q : Bool → Install → Prop} (hnone : claimOf owner d = none → Q false d)
    (hgone : d.backup = none → C (d.setRecord none) ∧ Q false (d.setRecord none))
    (hmarker : ∀ p, d.marker → (retire host p).wp C (fun _ => Q false) E d)
    (hcount : ∀ p, d.record = some p → d.marker = false → p.attempts = 0 →
      C (d.setRecord (some { p with attempts := 1 })) ∧ Q false (d.setRecord (some { p with attempts := 1 })))
    (hroll : ∀ p prev, d.record = some p → d.backup = some prev → d.marker = false → p.attempts ≠ 0 →
      (rollback host p prev).wp C Q E d) : (checkRollback host owner).wp C Q E d := by
  rw [checkRollback, wp_bind, wp_read]
  cases hclaim : claimOf owner d with
  | none => exact hnone hclaim
  | some p =>
    have hrecord := (claimOf_eq_some.mp hclaim).1
    change (settle host false p).wp C Q E d
    rw [settle, wp_bind, wp_read, id]
    cases hbackup : d.backup with
    | none => exact hgone hbackup
    | some prev =>
      change Prog.wp _ _ _ (if d.marker then _ else _) d
      by_cases hm : d.marker
      · rw [if_pos hm, wp_bind]
        exact hmarker p hm
      · rw [if_neg hm]
        have hm' : d.marker = false := by simpa using hm
        by_cases ha : p.attempts = 0
        · rw [if_pos ⟨ha, rfl⟩]
          exact hcount p hrecord hm' ha
        · rw [if_neg fun h => ha h.1]
          exact hroll p prev hrecord hbackup hm' ha

theorem rollback_over_other (prev : Bytes) (hd : P d) (hretire : Retirable P)
    (hrestore : (restoreBeside host p).Keeps P d)
    (hother : p.newSHA256 ≠ [] ∧ host.sha256hex d.program ≠ p.newSHA256) :
        (rollback host p prev).Keeps P d := by
  rw [Prog.Keeps, rollback, wp_bind, wp_read, id]
  by_cases hbackup : p.backupSHA256 ≠ [] ∧ host.sha256hex prev ≠ p.backupSHA256
  · rw [if_pos hbackup]
    exact hd
  · rw [if_neg hbackup, if_pos hother]
    refine (settleCutOff_keeps hd hrestore).bind fun _ t ht => ?_
    exact (retire_keeps hretire ht).bind fun _ _ h => h

theorem Settling.checkRollback_keeps (hready : Ready host rel d₀) (h : Settling host rel d₀ P) (hd : P d) :
    (checkRollback host owner).Keeps P d := by
  refine checkRollback_rule (fun _ => hd) (fun _ => and_self_iff.mpr (h.record d hd))
    (fun p _ => retire_keeps h.toRetirable hd) (fun p hp _ _ => and_self_iff.mpr (h.count d p hd hp)) ?_
  intro p prev hp _ _ _
  refine rollback_over_other prev hd h.toRetirable (h.restore d p hd hp) ?_
  rw [(h.before d hd).record p hp, (h.before d hd).program]
  exact ⟨host.sha256hex_ne _, hready.other⟩

theorem Healthy.checkRollback_keeps (h : Healthy rel d) :
    (checkRollback host owner).Keeps (Healthy rel) d := by
  refine checkRollback_rule (fun _ => h) (fun _ => and_self_iff.mpr (healthy_retirable.record d h))
    (fun p _ => retire_keeps healthy_retirable h) ?_ ?_
  · intro p _ hm _
    cases h.marker.symm.trans hm
  · intro p prev _ _ hm _
    cases h.marker.symm.trans hm

def Noted (host : Host) (rel : Release) (failed : Option (Name × Hash)) : Prop :=
  rel.version ≠ [] → failed = some (rel.version, host.sha256hex rel.newBinary)

/-- The old program is back and the release noted; a boot that is stopped before has `was`. -/
def Undone (host : Host) (owner : Name) (rel : Release) (d₀ : Install) (was : Option (Name × Hash))
    (d : Install) : Prop :=
  RolledBack host owner rel d₀ d ∧ (d.failed = was ∨ Noted host rel d.failed)

theorem Pending.rollback_wp (h : Pending host owner rel d₀ a d) :
    (rollback host { pendingOf host owner rel d₀ with attempts := a } d₀.program).wp
      (fun t => Pending host owner rel d₀ a t ∨ Undone host owner rel d₀ d.failed t)
      (fun rolled t => rolled = true ∧ RolledBack host owner rel d₀ t ∧ Noted host rel t.failed) E d := by
  rw [rollback, wp_bind, wp_read, id, h.program, if_neg fun h => h.2 rfl, if_neg fun h => h.2 rfl, wp_bind]
  refine wp_mono (wp_and (h.restoreBeside_wp (E := E)) (restoreBeside_keeps
    (P := (·.failed = d.failed)) (fun _ _ _ h => h) _ rfl)) (fun _ h => .inl h.1) ?_ nofun
  rintro _ t ⟨⟨ht, hbeside⟩, hfailed⟩
  have hback : RolledBack host owner rel d₀ (t.setProgram d₀.program) := by
    refine ⟨rfl, fun p hp => ⟨a, ?_⟩, hbeside, fun f hf x y hx hy => ?_⟩
    · exact Option.some.inj (hp.symm.trans ht.record)
    · exact Option.some.inj (hx.symm.trans (ht.besideBackup f hf y hy))
  refine ⟨.inr ⟨hback, .inl hfailed⟩, ?_⟩
  -- from here on only the record and the backups go
  have hretire : ∀ u, RolledBack host owner rel d₀ u ∧ Noted host rel u.failed → Prog.wp
      (fun t => Pending host owner rel d₀ a t ∨ Undone host owner rel d₀ d.failed t)
      (fun rolled t => rolled = true ∧ RolledBack host owner rel d₀ t ∧ Noted host rel t.failed) E
      (do retire host { pendingOf host owner rel d₀ with attempts := a }; pure true) u := by
    intro u hu
    rw [wp_bind]
    exact wp_mono (retire_keeps (rolledBack_settling.failed (Noted host rel)).toRetirable hu)
      (fun _ h => .inr ⟨h.1, .inr h.2⟩) (fun _ _ h => ⟨rfl, h⟩) nofun
  rw [noteFailed]
  split_ifs with hv
  · exact hretire _ ⟨hback, fun hne => absurd hv hne⟩
  · have hnoted : RolledBack host owner rel d₀
        ((t.setProgram d₀.program).setFailed (rel.version, host.sha256hex rel.newBinary)) :=
      ⟨hback.program, hback.record, hback.beside, hback.besideBackup⟩
    exact ⟨.inr ⟨hnoted, .inr fun _ => rfl⟩, hretire _ ⟨hnoted, fun _ => rfl⟩⟩

theorem Pending.checkRollback_wp (ha : a ≤ 1) (h : Pending host owner rel d₀ a d) :
    (checkRollback host owner).wp
      (fun t => (∃ b, a ≤ b ∧ b ≤ 1 ∧ Pending host owner rel d₀ b t) ∨ Undone host owner rel d₀ d.failed t)
      (fun rolled t => if a = 0 then Pending host owner rel d₀ 1 t
        else rolled = true ∧ RolledBack host owner rel d₀ t ∧ Noted host rel t.failed) E d := by
  have hrecord : ∀ p, d.record = some p → p = { pendingOf host owner rel d₀ with attempts := a } :=
    fun p hp => Option.some.inj (hp.symm.trans h.record)
  refine checkRollback_rule (fun hnone => ?_) (fun hgone => ?_) (fun p hm => ?_) ?_ ?_
  · have hclaim := claimOf_eq_some.mpr ⟨h.record, rfl⟩
    cases hnone.symm.trans hclaim
  · cases h.backup.symm.trans hgone
  · cases h.marker.symm.trans hm
  · intro p hp _ hcount
    obtain rfl := hrecord p hp
    obtain rfl : a = 0 := hcount
    have hcounted : Pending host owner rel d₀ 1
        (d.setRecord (some { pendingOf host owner rel d₀ with attempts := 1 })) :=
      ⟨h.program, rfl, h.backup, h.marker, h.beside, h.besideBackup⟩
    exact ⟨.inl ⟨1, Nat.zero_le 1, le_rfl, hcounted⟩, hcounted⟩
  · intro p prev hp hprev _ hcount
    obtain rfl := hrecord p hp
    obtain rfl : d₀.program = prev := Option.some.inj (h.backup.symm.trans hprev)
    refine wp_mono h.rollback_wp (fun _ ht => ht.imp_left fun ht => ⟨a, le_rfl, ha, ht⟩) ?_ fun _ _ h => h
    intro _ t ht
    rw [if_neg (by exact hcount)]
    exact ht

/-! ### A healthy boot -/

theorem writeBootMarker_keeps (hmarker : P (d.setMarker true))
    (hretired : ∀ d, P d → P (d.setRetiredMarker false)) (hnote : ∀ d v, P d → P (d.setIncomplete v))
    (hretire : Retirable P) (hrestore : ∀ t p, P t → t.record = some p → (restoreBeside host p).Keeps P t) :
    (writeBootMarker host owner).Keeps P d := by
  have ht := hretired _ hmarker
  rw [writeBootMarker, Prog.Keeps, wp_bind, wp_act, wp_bind, wp_act, wp_bind, wp_read]
  refine ⟨hmarker, ht, ?_⟩
  generalize (d.setMarker true).setRetiredMarker false = t at ht
  cases hclaim : claimOf owner t with
  | none => exact ht
  | some p =>
    have hp := (claimOf_eq_some.mp hclaim).1
    have hend : ∀ u, P u → u.record = some p →
        (settleCutOff host p >>= fun _ => retire host p).Keeps P u := fun u hu hpu =>
      (settleCutOff_keeps hu (hrestore u p hu hpu)).bind fun _ _ h => retire_keeps hretire h
    change (noteIncomplete host p >>= fun _ => settleCutOff host p >>= fun _ => retire host p).Keeps P t
    rw [noteIncomplete]
    split_ifs
    · exact hend t ht hp
    · exact ⟨hnote t _ ht, hend _ (hnote t _ ht) hp⟩

theorem Settling.writeBootMarker_keeps (h : Settling host rel d₀ P) (hd : P d) :
    (writeBootMarker host owner).Keeps P d :=
  AiiOs.Updates.writeBootMarker_keeps (h.marker d true hd) (h.retiredMarker · false) h.incomplete
    h.toRetirable h.restore

theorem healthy_writeBootMarker_keeps (h : d.program = rel.newBinary) :
    (writeBootMarker host owner).Keeps (Healthy rel) d :=
  writeBootMarker_keeps ⟨h, rfl⟩ (fun _ h => ⟨h.program, h.marker⟩) (fun _ _ h => ⟨h.program, h.marker⟩)
    healthy_retirable fun _ p ht _ => restoreBeside_keeps (fun _ n v h => h.setBeside n v) p ht

end

end AiiOs.Updates
