import AiiOs.Updates.Boots

/-! A swap that is stopped at any step, then any sequence of boots: the program is the
old one or the new one, and one of the two in the end. -/

namespace AiiOs.Updates
open Lib List Prog

section
variable {host : Host} {owner : Name} {rel : Release} {d₀ d : Install}

/-! ### The swap -/

section
variable {C : Install → Prop} {E : SwapError → Install → Prop} {f : Install → Install}

theorem replace_rule {Q : Outcome → Install → Prop} (hrefused : Q .refused d) (hC : C (f d))
    (hdurable : Q .durable (f d)) (hpublished : Q .published (f d)) : (replace f).wp C Q E d := by
  intro o
  cases o with
  | durable => exact ⟨hC, hdurable⟩
  | published => exact ⟨hC, hpublished⟩
  | refused => exact hrefused

theorem withdraw_rule {Q : Bool → Install → Prop} (hrefused : Q false d) (hC : C (f d))
    (hgone : Q true (f d)) :
    (withdraw f).wp C Q E d := by
  intro o
  cases o with
  | durable => exact ⟨hC, hgone⟩
  | published => exact ⟨hC, hgone⟩
  | refused => exact hrefused

variable {P : Install → Prop}

theorem replace_keeps {k : Outcome → Swap Unit} (hrefused : (k .refused).Keeps P d) (hf : P (f d))
    (hdurable : (k .durable).Keeps P (f d)) (hpublished : (k .published).Keeps P (f d)) :
    (replace f >>= k).Keeps P d :=
  wp_bind.mpr (replace_rule hrefused hf hdurable hpublished)

theorem withdraw_keeps (hd : P d) (hf : P (f d)) : (withdraw f).Keeps P d := withdraw_rule hd hf hf

theorem withdrawAll_keeps {fs : List (Install → Install)} (hf : ∀ f ∈ fs, ∀ d, P d → P (f d)) (hd : P d) :
    (withdrawAll fs).Keeps P d := by
  induction fs generalizing d with
  | nil => exact hd
  | cons f fs ih =>
    have hfs : ∀ g ∈ fs, ∀ d, P d → P (g d) := fun g hg => hf g (mem_cons_of_mem _ hg)
    exact (withdraw_keeps hd (hf f mem_cons_self d hd)).bind fun _ t ht => (ih hfs ht).bind fun _ _ h => h

theorem putBack_keeps (h : ∀ d n v, P d → P (d.setBeside n v)) (stood : Name → Option Bytes)
    (fs : List InstalledFile) (hd : P d) : (putBack stood fs).Keeps P d := by
  induction fs generalizing d with
  | nil => exact hd
  | cons f fs ih =>
    have hset := (h d f.name · hd)
    have hone : (putBackOne stood f).Keeps P d := by
      rw [putBackOne]
      cases stood f.name with
      | none => exact withdraw_keeps hd (hset _)
      | some old => exact wp_bind.mpr (replace_rule hd (hset _) (hset _) (hset _))
    exact hone.bind fun _ t ht => (ih ht).bind fun _ _ h => h

end

theorem Before.withdrawSwap_keeps (h : Before host rel d₀ d) (pend : UpdatePending) (k : Bool → SwapError) :
    (withdrawSwap host pend >>= fun clean => (.fail (k clean) : Swap Unit)).Keeps (Before host rel d₀) d :=
  (withdrawAll_keeps (fun _ hf _ hd => before_settling.step hf hd) h).bind fun _ _ h => h

theorem Before.withdrawRecord_keeps (h : Before host rel d₀ d) (k : Bool → SwapError) :
    (withdraw (.setRecord none) >>= fun clean => (.fail (k clean) : Swap Unit)).Keeps
      (Before host rel d₀) d :=
  (withdraw_keeps h (before_settling.record d h)).bind fun _ _ h => h

variable {pend : UpdatePending} {installed files : List InstalledFile} {P : Install → Prop}

theorem Before.retireSwapState_keeps (h : Before host rel d₀ d) (retired : Bool)
    (stage : SwapStage) : (retireSwapState host pend retired stage).Keeps (Before host rel d₀) d := by
  cases retired with
  | false => exact h.withdrawSwap_keeps pend _
  | true =>
    have harmed : Before host rel d₀ ((d.setRetiredMarker false).setMarker true) := ⟨h.program, h.record⟩
    exact replace_keeps h harmed (harmed.withdrawSwap_keeps pend _) harmed

structure Staged (host : Host) (owner : Name) (rel : Release) (d₀ : Install) (installed : List InstalledFile)
    (d : Install) : Prop where
  program : d.program = d₀.program
  record : d.record = some (pendingOf host owner rel d₀)
  backup : d.backup = some d₀.program
  marker : d.marker = false
  besideBackup : ∀ f ∈ rel.beside, ∀ y, d₀.beside f.name = some y → d.besideBackup f.name = some y
  beside : ∀ f ∈ installed, d.beside f.name = some f.data

theorem before_of_recorded (hprogram : d.program = d₀.program)
    (hrecord : d.record = some (pendingOf host owner rel d₀)) : Before host rel d₀ d := by
  refine ⟨hprogram, fun p hp => ?_⟩
  cases hrecord.symm.trans hp
  rfl

theorem Staged.before (h : Staged host owner rel d₀ installed d) :
    Before host rel d₀ d := before_of_recorded h.program h.record

def Swapped (host : Host) (owner : Name) (rel : Release) (d₀ d : Install) : Prop :=
  Before host rel d₀ d ∨ Pending host owner rel d₀ 0 d

theorem Staged.installAll_keeps {fs : List InstalledFile} (retired : Bool)
    (hrel : installed.reverse ++ fs = rel.beside) (h : Staged host owner rel d₀ installed d) :
    (installAll host (pendingOf host owner rel d₀) d₀.beside retired rel.newBinary installed fs).Keeps
      (Swapped host owner rel d₀) d := by
  have habandon : ∀ (t : Install) (l : List InstalledFile) (stage : SwapStage), Before host rel d₀ t →
      (abandon host (pendingOf host owner rel d₀) d₀.beside retired l stage).Keeps
      (Swapped host owner rel d₀) t :=
    fun t l stage ht => by
    refine Prog.Keeps.mono (P := Before host rel d₀) ?_ fun _ => .inl
    refine (putBack_keeps (fun _ n v h => h.setBeside n v) _ l ht).bind fun ok t ht => ?_
    split_ifs
    · exact ht.retireSwapState_keeps retired stage
    · exact ht
  induction fs generalizing d installed with
  | nil =>
    rw [append_nil] at hrel
    have hpending : Pending host owner rel d₀ 0 (d.setProgram rel.newBinary) := by
      refine ⟨rfl, h.record, h.backup, h.marker, fun f hf => .inl ?_, h.besideBackup⟩
      exact h.beside f (mem_reverse.mp (hrel ▸ hf))
    exact replace_keeps (habandon _ _ _ h.before) (.inr hpending) (.inr hpending) (.inr hpending)
  | cons f fs ih =>
    have hbefore := h.before.setBeside f.name (some f.data)
    refine replace_keeps (habandon _ _ _ h.before) (.inl hbefore) (ih ?_ ?_) (habandon _ _ _ hbefore)
    · rw [reverse_cons, append_assoc, singleton_append, hrel]
    · refine ⟨h.program, h.record, h.backup, h.marker, h.besideBackup, fun g hg => ?_⟩
      change Function.update d.beside f.name (some f.data) g.name = some g.data
      rcases mem_cons.mp hg with rfl | hg
      · exact Function.update_self ..
      · -- each file is installed once
        have hnodup := rel.nodup
        rw [← hrel, map_append, nodup_append] at hnodup
        have hne : g.name ≠ f.name := hnodup.2.2 _ (List.mem_map_of_mem (mem_reverse.mpr hg)) _
          (List.mem_map_of_mem mem_cons_self)
        rw [Function.update_of_ne hne]
        exact h.beside g hg

structure Recorded (host : Host) (owner : Name) (rel : Release) (d₀ : Install) (files : List InstalledFile)
    (d : Install) : Prop where
  program : d.program = d₀.program
  record : d.record = some (pendingOf host owner rel d₀)
  backup : d.backup = some d₀.program
  besideBackup : ∀ f ∈ files, ∀ y, d₀.beside f.name = some y → d.besideBackup f.name = some y

theorem Recorded.before (h : Recorded host owner rel d₀ files d) :
    Before host rel d₀ d := before_of_recorded h.program h.record

theorem Recorded.publish_keeps (h : Recorded host owner rel d₀ rel.beside d) :
    (publish host (pendingOf host owner rel d₀) d₀.beside rel).Keeps (Swapped host owner rel d₀) d := by
  have hfail : ∀ {t : Install} (retired : Bool), Before host rel d₀ t →
      (retireSwapState host (pendingOf host owner rel d₀) retired .retireMarker).Keeps
      (Swapped host owner rel d₀) t :=
    fun retired ht => (ht.retireSwapState_keeps retired _).mono fun _ => .inl
  rw [publish, Prog.Keeps, wp_bind, retireBootMarker, wp_bind, wp_read]
  by_cases hm : d.marker
  · rw [hm, Bool.not_true, if_neg Bool.false_ne_true, wp_bind]
    have hmoved : Before host rel d₀ ((d.setMarker false).setRetiredMarker true) :=
      before_of_recorded h.program h.record
    refine replace_rule (hfail false h.before) (.inl hmoved) ?_ (hfail true hmoved)
    have hstaged : Staged host owner rel d₀ [] ((d.setMarker false).setRetiredMarker true) :=
      ⟨h.program, h.record, h.backup, rfl, h.besideBackup, by rintro _ ⟨⟩⟩
    exact hstaged.installAll_keeps true rfl
  · have hm' : d.marker = false := by simpa using hm
    rw [hm']
    have hstaged : Staged host owner rel d₀ [] d :=
      ⟨h.program, h.record, h.backup, hm', h.besideBackup, by rintro _ ⟨⟩⟩
    exact hstaged.installAll_keeps false rfl

theorem Recorded.backUpBeside_wp (f : InstalledFile) (h : Recorded host owner rel d₀ files d) :
    (backUpBeside host (pendingOf host owner rel d₀) d₀.beside f).wp (Before host rel d₀)
      (fun _ => Recorded host owner rel d₀ (files ++ [f])) (fun _ => Before host rel d₀) d := by
  rw [backUpBeside]
  cases hold : d₀.beside f.name with
  | none =>
    refine ⟨h.program, h.record, h.backup, fun g hg y hy => ?_⟩
    rcases mem_append.mp hg with hg | hg
    · exact h.besideBackup g hg y hy
    · cases mem_singleton.mp hg
      cases hold.symm.trans hy
  | some old =>
    have hkept : Recorded host owner rel d₀ (files ++ [f]) (d.setBesideBackup f.name (some old)) := by
      refine ⟨h.program, h.record, h.backup, fun g hg y hy => ?_⟩
      change Function.update d.besideBackup f.name (some old) g.name = some y
      rw [Function.update_apply]
      split_ifs with hn
      · rw [← hold, ← hn, hy]
      · rcases mem_append.mp hg with hg | hg
        · exact h.besideBackup g hg y hy
        · exact absurd (congrArg InstalledFile.name (mem_singleton.mp hg)) hn
    have hfail : ∀ t, Before host rel d₀ t → Prog.wp (Before host rel d₀)
        (fun _ => Recorded host owner rel d₀ (files ++ [f])) (fun _ => Before host rel d₀)
        (do
          let clean ← withdrawSwap host (pendingOf host owner rel d₀)
          (.fail (.withdrawn (.besideBackup f.name) clean) : Swap Unit)) t := fun t ht =>
      wp_bind.mpr (withdrawAll_keeps (fun _ hf _ hd => before_settling.step hf hd) ht)
    rw [wp_bind]
    exact replace_rule (hfail _ h.before) hkept.before hkept (hfail _ hkept.before)

theorem backUp_keeps (hprogram : d.program = d₀.program)
    (hrecord : d.record = some (pendingOf host owner rel d₀)) :
    (backUp host (pendingOf host owner rel d₀) d₀ rel).Keeps (Swapped host owner rel d₀) d := by
  have hfail : ∀ {t : Install}, t.program = d.program → t.record = d.record →
    Prog.Keeps (Swapped host owner rel d₀)
      (do let clean ← withdraw (.setRecord none); (.fail (.withdrawn .backup clean) : Swap Unit)) t :=
    fun hp hr => ((before_of_recorded (hp.trans hprogram)
      (hr.trans hrecord)).withdrawRecord_keeps _).mono fun _ => .inl
  refine replace_keeps (hfail rfl rfl) (.inl (before_of_recorded hprogram hrecord)) ?_ (hfail rfl rfl)
  change Prog.wp _ _ _ (forM rel.beside _ >>= _) _
  rw [wp_bind]
  refine wp_mono (wp_forM (I := Recorded host owner rel d₀) ⟨hprogram, hrecord, rfl, nofun⟩
    fun l₁ f l₂ t _ ht => ht.backUpBeside_wp f) (fun _ => .inl) ?_ fun _ _ => .inl
  exact fun _ t ht => ht.publish_keeps

theorem swapBinary_keeps (hready : Ready host rel d₀) :
    (swapBinary host owner rel).Keeps (Swapped host owner rel d₀) d₀ := by
  have hstart : Before host rel d₀ d₀ := ⟨rfl, fun p hp => by cases hready.unclaimed.symm.trans hp⟩
  have hrecorded : Before host rel d₀ (d₀.setRecord (some (pendingOf host owner rel d₀))) :=
    before_of_recorded rfl rfl
  have hfail : ∀ {t}, Before host rel d₀ t → Prog.Keeps (Swapped host owner rel d₀)
      (do let clean ← withdraw (.setRecord none); (.fail (.withdrawn .record clean) : Swap Unit)) t :=
    fun ht => (ht.withdrawRecord_keeps _).mono fun _ => .inl
  exact replace_keeps (hfail hstart) (.inl hrecorded) (backUp_keeps rfl rfl) (hfail hrecorded)

/-! ### Any sequence of boots -/

/-- The files, with how many boots of the new program ran the check to its end, and
whether one of them wrote its marker. -/
structure Life where
  disk : Install
  checked : Nat
  completed : Bool

def Life.check (rel : Release) (s : Life) (d : Install) : Life :=
  { s with disk := d, checked := s.checked + if s.disk.program = rel.newBinary then 1 else 0 }

/-- A boot. It dies in its check, or after it, or at some step of what a healthy boot
writes, the first of which is its marker; a boot that rolled back does not get there. -/
inductive Boot (host : Host) (owner : Name) (rel : Release) (s : Life) : Life → Prop
  | died {d : Install} : Prog.Visits (checkRollback host owner) s.disk d →
      Boot host owner rel s { s with disk := d }
  | checked {d : Install} {rolled : Bool} : Prog.Ends (checkRollback host owner) s.disk (.ok rolled) d →
      Boot host owner rel s (s.check rel d)
  | marked {d d' : Install} : Prog.Ends (checkRollback host owner) s.disk (.ok false) d →
      Prog.Visits (writeBootMarker host owner) d d' →
      Boot host owner rel s
        { s.check rel d' with completed := s.completed || decide (s.disk.program = rel.newBinary) }

inductive Stands (host : Host) (owner : Name) (rel : Release) (d₀ : Install) (s : Life) : Prop
  | before : Before host rel d₀ s.disk → s.checked = 0 → s.completed = false → Stands host owner rel d₀ s
  | pending {a : Nat} : Pending host owner rel d₀ a s.disk → a ≤ 1 → s.checked ≤ a → s.completed = false →
      Stands host owner rel d₀ s
  | rolledBack : RolledBack host owner rel d₀ s.disk → s.completed = false → Stands host owner rel d₀ s
  | healthy : Healthy rel s.disk → s.completed → Stands host owner rel d₀ s

section
variable {s t : Life} (hb : Boot host owner rel s t)
include hb

theorem Boot.keeps (hcheck : ∀ d, P d → (checkRollback host owner).Keeps P d)
    (hmark : ∀ d, P d → (writeBootMarker host owner).Keeps P d) (h : P s.disk) : P t.disk := by
  cases hb with
  | died hv => exact wp_visits (hcheck _ h) hv
  | checked he => exact (hcheck _ h).ends he
  | marked he hv => exact wp_visits (hmark _ ((hcheck _ h).ends he)) hv

theorem Settling.boot (h : Settling host rel d₀ P) (hready : Ready host rel d₀)
    (hs : P s.disk) : P t.disk :=
  hb.keeps (fun _ hd => h.checkRollback_keeps hready hd) (fun _ hd => h.writeBootMarker_keeps hd) hs

theorem Healthy.boot (h : Healthy rel s.disk) : Healthy rel t.disk :=
  hb.keeps (fun _ h => h.checkRollback_keeps) (fun _ h => healthy_writeBootMarker_keeps h.program) h

theorem Boot.uncounted (h : ¬ s.disk.program = rel.newBinary) :
    t.checked = s.checked ∧ t.completed = s.completed := by
  cases hb with
  | died _ => exact ⟨rfl, rfl⟩
  | checked _ => exact ⟨by rw [Life.check, if_neg h, add_zero], rfl⟩
  | marked _ _ => exact ⟨by rw [Life.check, if_neg h, add_zero], by simp [h]⟩

theorem Boot.completed (h : s.completed) : t.completed := by
  cases hb with
  | died _ => exact h
  | checked _ => exact h
  | marked _ _ => simp [h]

theorem Pending.boot {a : Nat} (ha : a ≤ 1) (h : Pending host owner rel d₀ a s.disk)
    (hchecked : s.checked ≤ a) (hcompleted : s.completed = false) :
    Stands host owner rel d₀ t := by
  have hwp := h.checkRollback_wp ha (E := fun _ _ => True)
  cases hb with
  | died hv =>
    rcases wp_visits hwp hv with ⟨b, hab, hb, hd⟩ | ⟨hd, -⟩
    · exact .pending hd hb (le_trans hchecked hab) hcompleted
    · exact .rolledBack hd hcompleted
  | checked he =>
    have hend := (wp_ends hwp he).1 _ rfl
    split at hend
    · refine .pending hend le_rfl ?_ hcompleted
      rw [Life.check, if_pos h.program]
      change s.checked + 1 ≤ 1
      omega
    · exact .rolledBack hend.2.1 hcompleted
  | marked he hv =>
    have hend := (wp_ends hwp he).1 _ rfl
    split at hend
    · refine .healthy (wp_visits (healthy_writeBootMarker_keeps hend.program) hv) ?_
      simp [h.program]
    · cases hend.1

theorem Stands.boot (hready : Ready host rel d₀) (h : Stands host owner rel d₀ s) :
    Stands host owner rel d₀ t := by
  have hold : ∀ {d : Install}, d.program = d₀.program → ¬ d.program = rel.newBinary := by
    intro d hd hn
    exact hready.other (by rw [← hd, hn])
  cases h with
  | before h hchecked hcompleted =>
    obtain ⟨hc, hm⟩ := hb.uncounted (hold h.program)
    exact .before (before_settling.boot hb hready h) (hc.trans hchecked) (hm.trans hcompleted)
  | pending h ha hchecked hcompleted => exact h.boot hb ha hchecked hcompleted
  | rolledBack h hcompleted =>
    obtain ⟨-, hm⟩ := hb.uncounted (hold h.program)
    exact .rolledBack (rolledBack_settling.boot hb hready h) (hm.trans hcompleted)
  | healthy h hcompleted => exact .healthy (h.boot hb) (hb.completed hcompleted)

end

/-- After a swap that was stopped at any step and any sequence of boots: the program is
the old one or the new one; it is the new one once a boot of it wrote its marker; and
without such a boot, two boots of it that run the check to its end bring the old program
back, with the files beside it as they were. -/
theorem swap_settles (hready : Ready host rel d₀) {s : Life}
    (hswap : d = d₀ ∨ Prog.Visits (swapBinary host owner rel) d₀ d)
    (hs : Relation.ReflTransGen (Boot host owner rel) ⟨d, 0, false⟩ s) :
    (s.disk.program = d₀.program ∨ s.disk.program = rel.newBinary) ∧
      (s.completed → s.disk.program = rel.newBinary) ∧
      (s.completed = false → 2 ≤ s.checked → s.disk.program = d₀.program ∧
        ∀ f ∈ rel.beside, s.disk.beside f.name = d₀.beside f.name) := by
  have hstart : Stands host owner rel d₀ ⟨d, 0, false⟩ := by
    have hswapped : Swapped host owner rel d₀ d := by
      rcases hswap with rfl | hv
      · exact .inl ⟨rfl, fun p hp => by cases hready.unclaimed.symm.trans hp⟩
      · exact wp_visits (swapBinary_keeps hready) hv
    rcases hswapped with h | h
    · exact .before h rfl rfl
    · exact .pending h (Nat.zero_le 1) le_rfl rfl
  have hstands : Stands host owner rel d₀ s := by
    induction hs with
    | refl => exact hstart
    | tail _ hb ih => exact ih.boot hb hready
  cases hstands with
  | before h hchecked hcompleted =>
    refine ⟨.inl h.program, fun hc => ?_, fun _ h2 => ?_⟩
    · cases hcompleted.symm.trans hc
    · omega
  | pending h ha hchecked hcompleted =>
    refine ⟨.inr h.program, fun _ => h.program, fun _ h2 => ?_⟩
    omega
  | rolledBack h hcompleted =>
    refine ⟨.inl h.program, fun hc => ?_, fun _ _ => ⟨h.program, h.beside⟩⟩
    cases hcompleted.symm.trans hc
  | healthy h hcompleted =>
    refine ⟨.inr h.program, fun _ => h.program, fun hc => ?_⟩
    cases hcompleted.symm.trans hc

end

/-! ### A release that does not start -/

def plainHost : Host where
  sha256hex data := 'h' :: data.map fun b => Char.ofNat b.toNat
  sha256hex_ne _ := nofun
  installedBeside := [charsOf "aii-app"]

/-- A program with one file that is replaced and one that is added. -/
def besideRelease : Release where
  version := charsOf "1.1.0"
  newBinary := [2]
  beside := [⟨charsOf "aii-app", [20]⟩, ⟨charsOf "aii-vulkan-probe", [30]⟩]
  nodup := by decide
  plain := by decide

def besideInstall : Install where
  program := [1]
  beside n := if n = charsOf "aii-app" then some [10] else none
  besideBackup _ := none
  backup := none
  record := none
  marker := true
  retiredMarker := false
  failed := none
  incomplete := none

/-- The release is installed. When two boots of it are checked and die, what was there before is
back; when its first boot writes its marker, the release stays. -/
theorem besideRelease_rolled_back_or_kept : ∃ d s t,
    Prog.Visits (swapBinary plainHost (charsOf "/data") besideRelease) besideInstall d ∧ d.program = [2] ∧
      Relation.ReflTransGen (Boot plainHost (charsOf "/data") besideRelease) ⟨d, 0, false⟩ s ∧
      (s.disk.program = [1] ∧ ∀ f ∈ besideRelease.beside, s.disk.beside f.name =
        besideInstall.beside f.name) ∧
      Relation.ReflTransGen (Boot plainHost (charsOf "/data") besideRelease) ⟨d, 0, false⟩ t ∧
      t.completed ∧ t.disk.program = [2] := by
  let check := checkRollback plainHost (charsOf "/data")
  let mark := writeBootMarker plainHost (charsOf "/data")
  have hrun : ((swapBinary plainHost (charsOf "/data") besideRelease).exec (.replicate 12 .durable)
      besideInstall).1.any fun d => d.program == [2] && (check.exec [] d).2.any fun x =>
        x.1.toOption == some false && x.2.program == [2] && (mark.exec [] x.2).1.any (·.marker) &&
          (check.exec [] x.2).2.any fun y => y.1.isOk := by
    decide +kernel
  obtain ⟨d, hd, hb⟩ := List.any_eq_true.mp hrun
  rw [Bool.and_eq_true, beq_iff_eq] at hb
  obtain ⟨hnew, hb⟩ := hb
  obtain ⟨r₁, d₁, hends₁, hb⟩ := exists_ends_of_exec hb
  simp only [Bool.and_eq_true, beq_iff_eq] at hb
  obtain ⟨⟨⟨hok₁, hnew₁⟩, hmark⟩, hb⟩ := hb
  obtain ⟨d', hd', -⟩ := List.any_eq_true.mp hmark
  obtain ⟨r₂, d₂, hends₂, hok₂⟩ := exists_ends_of_exec hb
  have hready : Ready plainHost besideRelease besideInstall := ⟨rfl, by decide⟩
  cases r₁ with
  | error e => cases hok₁
  | ok rolled₁ =>
    cases hok₁
    cases r₂ with
    | error e => cases hok₂
    | ok rolled₂ =>
      let s₁ := Life.check besideRelease ⟨d, 0, false⟩ d₁
      let s₂ := Life.check besideRelease s₁ d₂
      have hs : Relation.ReflTransGen (Boot plainHost (charsOf "/data") besideRelease) ⟨d, 0, false⟩ s₂ :=
        .tail (.single (.checked hends₁)) (.checked hends₂)
      have hchecked : 2 ≤ s₂.checked := by
        change 2 ≤ 0 + (if d.program = [2] then 1 else 0) + if d₁.program = [2] then 1 else 0
        rw [if_pos hnew, if_pos hnew₁]
      have hback := (swap_settles hready (.inr (visits_of_exec hd)) hs).2.2 rfl hchecked
      have hmarked : Boot plainHost (charsOf "/data") besideRelease ⟨d, 0, false⟩ _ :=
        .marked hends₁ (visits_of_exec hd')
      have hcompleted : (false || decide (d.program = [2])) = true := decide_eq_true hnew
      exact ⟨d, s₂, _, visits_of_exec hd, hnew, hs, hback, .single hmarked, hcompleted,
        (swap_settles hready (.inr (visits_of_exec hd)) (.single hmarked)).2.1 hcompleted⟩

end AiiOs.Updates
