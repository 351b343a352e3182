import AiiOs.Continuity.Withdraw

/-! The runs that put a restore back, over any number of interrupted starts, with staged
files that vanish and files that are written in between. -/

namespace AiiOs.Continuity
open Lib List Prog

section
variable {cfg : Settings} {d₀ d : Disk} {n m : Name}

/-! ### The next rename -/

variable {back : List (Place × Place)} {mv : RestoreMove} {E : RestoreError → Disk → Prop}

theorem undo_step {b : Place × Place} (hsafe : Safe cfg d₀ d)
    (h : undoPlan (planRestoreMoves cfg d₀) d = .ok (b :: back)) :
    ∃ mv, Next cfg d₀ d mv ∧ b = undoRename mv ∧ undoPlan (planRestoreMoves cfg d₀) (putBack d mv) =
      .ok back := by
  obtain ⟨hundo, hback⟩ := undoPlan_plan.mp h
  obtain ⟨mv, rest, hfilter, hb, rfl⟩ := map_eq_cons_iff.mp hback.symm
  obtain ⟨l₁, l₂, hl, hbefore, hmade, rfl⟩ := filter_eq_cons_iff.mp hfilter
  have hmem : ∀ x, x ∈ planRestoreMoves cfg d₀ ↔ x ∈ l₁ ++ mv :: l₂ := by
    intro x
    rw [← hl, mem_reverse]
  have hnodup : (l₁ ++ mv :: l₂).Nodup := by
    rw [← hl]
    exact nodup_reverse.mpr nodup_planRestoreMoves
  have hnext : Next cfg d₀ d mv := by
    refine ⟨(hmem mv).mpr (mem_append_right _ mem_cons_self), hmade, fun hkind n m hx => ?_⟩
    simpa using hbefore _ (installMove_mem_of_split hl hkind hx rfl)
  refine ⟨mv, hnext, hb.symm, undoPlan_plan.mpr ⟨hnext.undoable_putBack hsafe hundo, ?_⟩⟩
  -- what was not made before stays so, `mv` is no longer made, and the rest is as it was
  have hl₁ : l₁.filter (made (planRestoreMoves cfg d₀) (putBack d mv)) = [] := by
    rw [filter_eq_nil_iff]
    intro x hx hm
    exact hbefore x hx ((hnext.made_putBack ((hmem x).mpr (mem_append_left _ hx))).mp hm).1
  have hmv : ¬ made (planRestoreMoves cfg d₀) (putBack d mv) mv := fun hm =>
    ((hnext.made_putBack hnext.mem).mp hm).2 rfl
  have hl₂ : l₂.filter (made (planRestoreMoves cfg d₀) (putBack d mv)) =
      l₂.filter (made (planRestoreMoves cfg d₀) d) := by
    refine filter_congr fun x hx => ?_
    have hx' := (hmem x).mpr (mem_append_right _ (mem_cons_of_mem _ hx))
    have hne : x ≠ mv := by
      rintro rfl
      exact (nodup_cons.mp (nodup_append.mp hnodup).2.1).1 hx
    rw [Bool.eq_iff_iff, hnext.made_putBack hx', and_iff_left hne]
  rw [hl, filter_append, hl₁, filter_cons_of_neg hmv, hl₂, nil_append]

theorem Next.at?_putBack (h : Next cfg d₀ d mv) : ∃ f, d.at? mv.dest = some f ∧
    ∀ p, (putBack d mv).at? p = if p = undoTarget mv then some f else if p = mv.dest then none
    else d.at? p := by
  obtain ⟨f, hf⟩ := Disk.has_iff.mp (dest_of_made h.mem h.made)
  exact ⟨f, hf, fun p => Disk.at?_rename hf⟩

theorem Next.safe_putBack (h : Next cfg d₀ d mv) (hsafe : Safe cfg d₀ d) : Safe cfg d₀ (putBack d mv) := by
  obtain ⟨g, hg, hat⟩ := h.at?_putBack
  -- what held the file of `mv` changes places; every other file is where it was
  rcases planRestoreMoves_cases h.mem with ⟨n', k', hk', rfl⟩ | ⟨n', m', hn', rfl⟩
  · have hset : ∀ n k, keptKind cfg d₀ n = some k → setName cfg n = setName cfg n' → n = n' := by
      intro n k hk hs
      exact (keptKind_named hk).1.live_eq (hs ▸ (keptKind_named hk').1)
    cases k' with
    | install => exact absurd rfl (keptKind_named hk').2.2
    | preserve =>
      have htarget : undoTarget (keepMove cfg .preserve n') = .live n' := rfl
      have hdest : (keepMove cfg .preserve n').dest = .aside (setName cfg n') := rfl
      rw [htarget, hdest] at hat
      rw [hdest] at hg
      refine ⟨fun n f hk hf => ?_, fun n f hk hf => ?_⟩
      · by_cases hn : n = n'
        · subst hn
          refine .inr ⟨by simp [hat], ?_⟩
          rw [hat, if_pos rfl]
          rcases hsafe.preserved n f hk hf with ha | ⟨ha, -⟩
          · rw [← hg, ha]
          · cases ha.symm.trans hg
        · have hs : ¬ setName cfg n = setName cfg n' := fun hs => hn (hset n _ hk hs)
          simp only [hat, Place.live.injEq, Place.aside.injEq, hn, hs]
          exact hsafe.preserved n f hk hf
      · have hn : n ≠ n' := by
          rintro rfl
          cases hk.symm.trans hk'
        simp only [hat, Place.live.injEq, hn]
        exact hsafe.copied n f hk hf
    | copy =>
      have htarget : undoTarget (keepMove cfg .copy n') = notCompleted (setName cfg n') := rfl
      have hdest : (keepMove cfg .copy n').dest = .aside (setName cfg n') := rfl
      rw [htarget, hdest] at hat
      refine ⟨fun n f hk hf => ?_, fun n f hk hf => ?_⟩
      · have hs : ¬ setName cfg n = setName cfg n' := by
          intro hs
          obtain rfl := hset n _ hk hs
          cases hk.symm.trans hk'
        have hne := named_ne_notCompleted (keptKind_named hk).1 (setName cfg n')
        rw [hat, hat, if_neg hne, if_neg fun h => hs (Place.aside.inj h)]
        exact hsafe.preserved n f hk hf
      · rw [hat]
        exact hsafe.copied n f hk hf
  · have htarget : undoTarget (installMove n' m') = notCompleted n' := rfl
    have hdest : (installMove n' m').dest = .live n' := rfl
    rw [htarget, hdest] at hat
    have hmade := made_install.mp h.made
    refine ⟨fun n f hk hf => ?_, fun n f hk hf => ?_⟩
    · have hne := named_ne_notCompleted (keptKind_named hk).1 n'
      rw [hat, hat, if_neg hne]
      by_cases hn : n = n'
      · subst hn
        obtain ⟨-, haside⟩ := hmade.2.2 _ hk
        rcases hsafe.preserved n f hk hf with ha | ⟨ha, -⟩
        · exact .inl ha
        · rw [Disk.has_eq_false.mpr ha] at haside
          cases haside
      · rw [if_neg fun h => hn (Place.live.inj h)]
        exact hsafe.preserved n f hk hf
    · have hn : n ≠ n' := by
        rintro rfl
        cases (hmade.2.2 _ hk).1
      rw [hat, if_neg fun h => hn (Place.live.inj h)]
      exact hsafe.copied n f hk hf

/-! ### The guess -/

/-- Each file that is taken for an installed one was installed by this restore. -/
def GuessRight (cfg : Settings) (d₀ d : Disk) : Prop :=
  ∀ n m f, installMove n m ∈ planRestoreMoves cfg d₀ →
    made (planRestoreMoves cfg d₀) d (installMove n m) → d.at? (.live n) = some f → f.origin = .staged

/-- The live files that the restore did not install are where they were. -/
def LiveKept (d d' : Disk) : Prop :=
  ∀ n f, d.at? (.live n) = some f → f.origin ≠ .staged → d'.at? (.live n) = some f

variable {b a : Place} {d₁ d' : Disk}

theorem LiveKept.trans {d₂ d₃ : Disk} (h : LiveKept d₁ d₂) (h' : LiveKept d₂ d₃) : LiveKept d₁ d₃ :=
  fun n f hf ho => h' n f (h n f hf ho) ho

theorem Next.liveKept_putBack (h : Next cfg d₀ d mv) (hundo : Undoable cfg d₀ d)
    (hguess : GuessRight cfg d₀ d) : LiveKept d (putBack d mv) := by
  intro n f hf ho
  obtain ⟨g, hg, hat⟩ := h.at?_putBack
  rw [hat]
  rcases planRestoreMoves_cases h.mem with ⟨n', k', hk', rfl⟩ | ⟨n', m', hn', rfl⟩
  · rw [if_neg, if_neg (by rintro ⟨⟩), hf]
    intro ht
    by_cases hk : k' = .preserve
    · -- the place of a file set aside is free by now
      subst hk
      cases (show Place.live n = .live n' from ht)
      obtain ⟨m, hinstall, hm⟩ :=
        hundo.vacated n hk' ((made_keep hk').symm.trans h.made) (Disk.has_iff.mpr ⟨f, hf⟩)
      rw [h.first (by rintro ⟨⟩) n m hinstall] at hm
      cases hm
    · rw [undoTarget, if_neg (by exact hk)] at ht
      cases ht
  · have htarget : ¬ .live n = undoTarget (installMove n' m') := by rintro ⟨⟩
    rw [if_neg htarget, if_neg, hf]
    intro hd
    cases hd
    exact ho (hguess _ m' f h.mem h.made hf)

theorem Next.guessRight_putBack (h : Next cfg d₀ d mv) (hguess : GuessRight cfg d₀ d) :
    GuessRight cfg d₀ (putBack d mv) := by
  intro n m f hmem hmade hf
  obtain ⟨hm, hne⟩ := (h.made_putBack hmem).mp hmade
  obtain ⟨g, hg, hat⟩ := h.at?_putBack
  refine hguess n m f hmem hm ?_
  rw [hat] at hf
  rcases planRestoreMoves_cases h.mem with ⟨n', k', hk', rfl⟩ | ⟨n', m', hn', rfl⟩
  · rw [h.first (keptKind_named hk').2.2 n m hmem] at hm
    cases hm
  · have htarget : ¬ .live n = undoTarget (installMove n' m') := by exact nofun
    split_ifs at hf with hd
    exact hf

theorem performable_eq_false {moves : List RestoreMove} : performable moves d = false ↔
    ∃ mv ∈ moves, mv.kind = .install ∧ d.has mv.source = false ∧ made moves d mv = false := by
  simp [performable]

theorem Next.stuck_putBack (h : Next cfg d₀ d mv)
    (hstuck : performable (planRestoreMoves cfg d₀) d = false) :
    performable (planRestoreMoves cfg d₀) (putBack d mv) = false := by
  rw [performable_eq_false] at hstuck ⊢
  obtain ⟨x, hx, hkind, hsource, hmade⟩ := hstuck
  refine ⟨x, hx, hkind, ?_, ?_⟩
  · rcases planRestoreMoves_cases hx with ⟨n', k', hk', rfl⟩ | ⟨n', m', hn', rfl⟩
    · exact absurd hkind (keptKind_named hk').2.2
    · exact h.has_staged.trans hsource
  · rw [← Bool.not_eq_true, h.made_putBack hx, hmade]
    exact fun hm => Bool.false_ne_true hm.1

/-! ### Runs -/

/-- The renames of a plan, one after the other: after each, the plan of what is left is
what is left of the plan. -/
theorem undo_wp {P : Disk → Prop}
    (hstep : ∀ d mv, P d → Next cfg d₀ d mv → Undoable cfg d₀ d → P (putBack d mv)) (hp : P d)
    (hsafe : Safe cfg d₀ d) (h : undoPlan (planRestoreMoves cfg d₀) d = .ok back) :
    Prog.wp (fun t => P t ∧ Safe cfg d₀ t ∧ ∃ back, undoPlan (planRestoreMoves cfg d₀) t = .ok back)
      (fun _ t => P t ∧ Safe cfg d₀ t ∧ undoPlan (planRestoreMoves cfg d₀) t = .ok []) E
      (forM back fun (a, b) => .act (Disk.rename a b) : Restoring) d := by
  induction back generalizing d with
  | nil => exact ⟨hp, hsafe, h⟩
  | cons b back ih =>
    obtain ⟨mv, hnext, rfl, hback⟩ := undo_step hsafe h
    have hp' := hstep d mv hp hnext (undoPlan_plan.mp h).1
    have hsafe' := hnext.safe_putBack hsafe
    exact ⟨⟨hp', hsafe', back, hback⟩, ih hp' hsafe' hback⟩

theorem markAside_wp {C Q : Disk → Prop} {k : Mark} (hc : C (d.mark k)) (hq : Q (d.mark k)) (hd : Q d) :
    (markAside k).wp C (fun _ => Q) E d := by
  rw [markAside, wp_bind, wp_read]
  split_ifs
  · exact ⟨hc, hq⟩
  · exact hd

section
variable (h : Safe cfg d₀ d)
include h

theorem Safe.marks (marks : Mark → Bool) : Safe cfg d₀ { d with marks := marks } := ⟨h.preserved, h.copied⟩

theorem Safe.congr (hlive : ∀ n, d'.at? (.live n) = d.at? (.live n))
    (haside : ∀ a, d'.at? (.aside a) = d.at? (.aside a)) : Safe cfg d₀ d' := by
  refine ⟨fun n f hk hf => ?_, fun n f hk hf => ?_⟩
  · rw [hlive, haside]
    exact h.preserved n f hk hf
  · rw [hlive]
    exact h.copied n f hk hf

theorem Safe.removeStaging : Safe cfg d₀ d.removeStaging :=
  h.congr (fun _ => Disk.at?_removeStaging) fun _ => Disk.at?_removeStaging

theorem closeFinished_safe : closeFinished.wp (Safe cfg d₀) (fun _ => Safe cfg d₀) E d := by
  rw [closeFinished, wp_bind]
  have rest : ∀ t, Safe cfg d₀ t → Prog.wp (Safe cfg d₀) (fun _ => Safe cfg d₀) E (do
      .act (.mark .settle)
      removeMark .request
      removeMark .failed
      removeMark .newMachine
      removeMark .journal
      .act .removeStaging : Restoring) t := by
    intro t ht
    exact ⟨ht.marks _, ht.marks _, ht.marks _, ht.marks _, ht.marks _, (ht.marks _).removeStaging,
      (ht.marks _).removeStaging⟩
  exact markAside_wp (h.marks _) (rest _ (h.marks _)) (rest d h)

end

theorem performMove_safe (hmv : mv ∈ planRestoreMoves cfg d₀) (h : Safe cfg d₀ d) (i : Nat) :
    (performMove (mv, i)).wp (Safe cfg d₀) (fun _ => Safe cfg d₀) (fun _ _ => True) d := by
  rcases planRestoreMoves_cases hmv with ⟨n, k, hk, rfl⟩ | ⟨n, m, hn, rfl⟩
  · obtain ⟨hn, -, hinstall⟩ := keptKind_named hk
    have hset : ∀ n' k', keptKind cfg d₀ n' = some k' → setName cfg n' = setName cfg n → n' = n := by
      intro n' k' hk' hs
      exact (keptKind_named hk').1.live_eq (hs ▸ hn)
    unfold performMove keepMove
    rw [wp_bind, wp_read, id, if_neg hinstall]
    -- made before; nothing to keep; a copy; a rename
    split_ifs with haside hlive hcopy
    · exact h
    · trivial
    · obtain ⟨f, hf⟩ := Disk.has_iff.mp (by simpa using hlive)
      have hsafe : Safe cfg d₀ (d.copy (.live n) (.aside (setName cfg n))) := by
        refine ⟨fun n' f' hk' hf' => ?_, fun n' f' hk' hf' => ?_⟩
        · have hs : ¬ setName cfg n' = setName cfg n := by
            intro hs
            obtain rfl := hset n' _ hk' hs
            cases (congrArg some hcopy).symm.trans (hk.symm.trans hk')
          simp only [Disk.at?_copy hf, Place.aside.injEq, hs]
          exact h.preserved n' f' hk' hf'
        · simp only [Disk.at?_copy hf]
          exact h.copied n' f' hk' hf'
      exact ⟨hsafe, hsafe⟩
    · obtain ⟨f, hf⟩ := Disk.has_iff.mp (by simpa using hlive)
      have hnone := Disk.has_eq_false.mp (by simpa using haside)
      have hsafe : Safe cfg d₀ (d.rename (.live n) (.aside (setName cfg n))) := by
        refine ⟨fun n' f' hk' hf' => ?_, fun n' f' hk' hf' => ?_⟩
        · by_cases hnn : n' = n
          · subst hnn
            rcases h.preserved n' f' hk' hf' with ha | ⟨-, hl⟩
            · cases hnone.symm.trans ha
            · rw [Disk.at?_rename hf, if_pos rfl, ← hf, hl]
              exact .inl rfl
          · have hs : ¬ setName cfg n' = setName cfg n := fun hs => hnn (hset n' _ hk' hs)
            simp only [Disk.at?_rename hf, Place.aside.injEq, Place.live.injEq, hs, hnn]
            exact h.preserved n' f' hk' hf'
        · have hnn : n' ≠ n := by
            rintro rfl
            exact hcopy (Option.some.inj (hk.symm.trans hk'))
          simp only [Disk.at?_rename hf, Place.live.injEq, hnn]
          exact h.copied n' f' hk' hf'
      exact ⟨hsafe, hsafe⟩
  · simp only [performMove, installMove, wp_bind, wp_read, id]
    -- an install is only made to a free place, so that no file is lost
    cases hs : d.at? (.staged m) with
    | none =>
      cases d.at? (.live n) with
      | none => trivial
      | some g => exact h
    | some f =>
      cases hl : d.at? (.live n) with
      | some g =>
        change Prog.wp _ _ _ (if f.content ≠ g.content then _ else _) d
        split_ifs
        · trivial
        · exact h
      | none =>
        have hsafe : Safe cfg d₀ (d.rename (.staged m) (.live n)) := by
          refine ⟨fun n' f' hk' hf' => ?_, fun n' f' hk' hf' => ?_⟩
          · rcases h.preserved n' f' hk' hf' with ha | ⟨ha, hl'⟩
            · refine .inl ?_
              simp only [Disk.at?_rename hs]
              exact ha
            · have hnn : n' ≠ n := by
                rintro rfl
                cases hl.symm.trans hl'
              simp only [Disk.at?_rename hs, Place.live.injEq, hnn]
              exact .inr ⟨ha, hl'⟩
          · have hl' := h.copied n' f' hk' hf'
            have hnn : n' ≠ n := by
              rintro rfl
              cases hl.symm.trans hl'
            simp only [Disk.at?_rename hs, Place.live.injEq, hnn]
            exact hl'
        exact ⟨hsafe, hsafe⟩

theorem closeWithdrawn_safe (h : Safe cfg d₀ d) :
    closeWithdrawn.wp (Safe cfg d₀) (fun _ => Safe cfg d₀) E d := by
  simp only [closeWithdrawn, wp_bind]
  have rest : ∀ t, Safe cfg d₀ t → Safe cfg d₀ (t.mark .failed) ∧
      Safe cfg d₀ ((t.mark .failed).unmark .request) ∧
      Safe cfg d₀ (((t.mark .failed).unmark .request).unmark .journal) ∧
      Safe cfg d₀ (((t.mark .failed).unmark .request).unmark .journal).removeStaging ∧
      Safe cfg d₀ (((t.mark .failed).unmark .request).unmark .journal).removeStaging :=
    fun t ht => ⟨ht.marks _, ht.marks _, ht.marks _, (ht.marks _).removeStaging, (ht.marks _).removeStaging⟩
  exact ⟨h.marks _, h.marks _, markAside_wp (h.marks _) (rest _ (h.marks _)) (rest _ (h.marks _))⟩

theorem finishRestore_safe (h : Safe cfg d₀ d) :
    (finishRestore (planRestoreMoves cfg d₀)).wp (Safe cfg d₀) (fun _ => Safe cfg d₀)
      (fun _ _ => True) d := by
  rw [finishRestore, wp_bind, wp_read]
  split_ifs with hstuck
  · rw [withdrawJournal, wp_bind, wp_read]
    cases hplan : undoPlan (planRestoreMoves cfg d₀) d with
    | error e => trivial
    | ok back =>
      rw [wp_bind]
      refine wp_mono (undo_wp (P := fun _ => True) (fun _ _ _ _ _ => trivial) trivial h hplan)
        (fun t ht => ht.2.1) (fun _ t ht => closeWithdrawn_safe ht.2.1) fun _ _ h => h
  · rw [wp_bind]
    refine wp_post (wp_forM (I := fun _ => Safe cfg d₀) h ?_) fun _ t ht => closeFinished_safe ht
    rintro l₁ ⟨mv, i⟩ l₂ t hl ht
    have hmem : (mv, i) ∈ (planRestoreMoves cfg d₀).zipIdx := by simp [hl]
    exact performMove_safe (fst_mem_of_mem_zipIdx hmem) ht i

theorem performPendingRestore_safe (h : Safe cfg d₀ d) :
    (performPendingRestore cfg (planRestoreMoves cfg d₀)).wp (Safe cfg d₀) (fun _ => Safe cfg d₀)
      (fun _ _ => True) d := by
  rw [performPendingRestore, wp_bind, wp_read]
  split_ifs
  · split
    · trivial
    · exact finishRestore_safe h
  · trivial
  · exact h

/-! ### A start that cannot complete the restore -/

structure Undoing (cfg : Settings) (d₀ d : Disk) : Prop where
  journal : d.marks .journal
  stuck : performable (planRestoreMoves cfg d₀) d = false
  right : GuessRight cfg d₀ d
  safe : Safe cfg d₀ d
  plan : ∃ back, undoPlan (planRestoreMoves cfg d₀) d = .ok back

/-- A restore that was put back: what was live is, and nothing of it is aside. -/
structure Withdrawn (cfg : Settings) (d₀ d : Disk) : Prop where
  journal : d.marks .journal = false
  request : d.marks .request = false
  live : ∀ n k f, keptKind cfg d₀ n = some k → d₀.at? (.live n) = some f → d.at? (.live n) = some f
  aside : ∀ n k, keptKind cfg d₀ n = some k → d.at? (.aside (setName cfg n)) = none

theorem Withdrawn.removeStaging (h : Withdrawn cfg d₀ d) : Withdrawn cfg d₀ d.removeStaging where
  journal := by
    rw [Disk.marks_removeStaging]
    exact h.journal
  request := by
    rw [Disk.marks_removeStaging]
    exact h.request
  live n k f hk hf := Disk.at?_removeStaging.trans (h.live n k f hk hf)
  aside n k hk := Disk.at?_removeStaging.trans (h.aside n k hk)

theorem withdrawn_of_undoPlan (hsafe : Safe cfg d₀ d) (h : undoPlan (planRestoreMoves cfg d₀) d =
    .ok []) (hat : ∀ p, d'.at? p = d.at? p) (hjournal : d'.marks .journal = false)
    (hrequest : d'.marks .request = false) : Withdrawn cfg d₀ d' := by
  have hfilter := map_eq_nil_iff.mp (undoPlan_plan.mp h).2.symm
  have hnone : ∀ n k, keptKind cfg d₀ n = some k → d.at? (.aside (setName cfg n)) = none := by
    intro n k hk
    have hmem : keepMove cfg k n ∈ (planRestoreMoves cfg d₀).reverse :=
      mem_reverse.mpr (mem_append_left _ (mem_keepMoves.mpr ⟨n, _, hk, rfl⟩))
    have hmade := filter_eq_nil_iff.mp hfilter _ hmem
    rw [made_keep hk] at hmade
    exact Disk.has_eq_false.mp (by simpa using hmade)
  refine ⟨hjournal, hrequest, fun n k f hk hf => ?_, fun n k hk => (hat _).trans (hnone n k hk)⟩
  rw [hat]
  cases k with
  | preserve =>
    rcases hsafe.preserved n f hk hf with ha | ⟨-, hl⟩
    · cases (hnone n _ hk).symm.trans ha
    · exact hl
  | copy => exact hsafe.copied n f hk hf
  | install => exact absurd rfl (keptKind_named hk).2.2

section
variable (h : Undoing cfg d₀ d)
include h

theorem Undoing.marks {marks : Mark → Bool} (hj : marks .journal) :
    Undoing cfg d₀ { d with marks := marks } :=
  ⟨hj, h.stuck, h.right, h.safe.marks _, h.plan⟩

theorem closeWithdrawn_wp (hplan : undoPlan (planRestoreMoves cfg d₀) d = .ok []) (hlive : LiveKept d₁ d) :
    closeWithdrawn.wp (fun t => LiveKept d₁ t ∧ (Undoing cfg d₀ t ∨ Withdrawn cfg d₀ t))
      (fun _ t => LiveKept d₁ t ∧ Withdrawn cfg d₀ t) E d := by
  simp only [closeWithdrawn, wp_bind]
  have going : ∀ marks, marks .journal → LiveKept d₁ { d with marks := marks } ∧
        (Undoing cfg d₀ { d with marks := marks } ∨ Withdrawn cfg d₀ { d with marks := marks }) :=
    fun _ hj => ⟨hlive, .inl (h.marks hj)⟩
  have gone : ∀ marks, marks .journal = false → marks .request = false →
      Withdrawn cfg d₀ { d with marks := marks } :=
    fun _ hj hr => withdrawn_of_undoPlan h.safe hplan (fun _ => rfl) hj hr
  have hstaging : ∀ marks, LiveKept d₁ (.removeStaging { d with marks := marks }) :=
    fun _ n f hf ho => Disk.at?_removeStaging.trans (hlive n f hf ho)
  refine ⟨going _ h.journal, going _ h.journal, markAside_wp (going _ h.journal) ?_ ?_⟩
  · exact ⟨going _ h.journal, going _ h.journal, ⟨hlive, .inr (gone _ rfl rfl)⟩,
      ⟨hstaging _, .inr (gone _ rfl rfl).removeStaging⟩, hstaging _, (gone _ rfl rfl).removeStaging⟩
  · exact ⟨going _ h.journal, going _ h.journal, ⟨hlive, .inr (gone _ rfl rfl)⟩,
      ⟨hstaging _, .inr (gone _ rfl rfl).removeStaging⟩, hstaging _, (gone _ rfl rfl).removeStaging⟩

theorem Undoing.finishRestore_wp : (finishRestore (planRestoreMoves cfg d₀)).wp
      (fun t => LiveKept d t ∧ (Undoing cfg d₀ t ∨ Withdrawn cfg d₀ t))
      (fun _ t => LiveKept d t ∧ Withdrawn cfg d₀ t) (fun _ _ => False) d := by
  obtain ⟨back, hback⟩ := h.plan
  rw [finishRestore, wp_bind, wp_read, h.stuck, Bool.not_false, if_pos rfl, withdrawJournal,
    wp_bind, wp_read, hback, wp_bind]
  refine wp_mono (undo_wp (P := fun t => LiveKept d t ∧ t.marks .journal ∧ GuessRight cfg d₀ t ∧
    performable (planRestoreMoves cfg d₀) t = false) ?_ ?_ h.safe hback) ?_ ?_ fun _ _ h => h
  · rintro t mv ⟨hlive, hj, hright, hstuck⟩ hnext hundo
    refine ⟨hlive.trans (hnext.liveKept_putBack hundo hright), ?_, hnext.guessRight_putBack hright,
      hnext.stuck_putBack hstuck⟩
    rw [putBack, Disk.marks_rename]
    exact hj
  · exact ⟨fun _ _ hf _ => hf, h.journal, h.right, h.stuck⟩
  · rintro t ⟨⟨hlive, hj, hright, hstuck⟩, hsafe, hplan⟩
    exact ⟨hlive, .inl ⟨hj, hstuck, hright, hsafe, hplan⟩⟩
  · rintro _ t ⟨⟨hlive, hj, hright, hstuck⟩, hsafe, hplan⟩
    exact closeWithdrawn_wp ⟨hj, hstuck, hright, hsafe, _, hplan⟩ hplan hlive

theorem Undoing.started {t : Disk}
    (ht : Relation.ReflTransGen (Started cfg (planRestoreMoves cfg d₀)) d t) :
    LiveKept d t ∧ (Undoing cfg d₀ t ∨ Withdrawn cfg d₀ t) := by
  induction ht with
  | refl => exact ⟨fun _ _ hf _ => hf, .inl h⟩
  | @tail t u _ hstart ih =>
    obtain ⟨hlive, hundoing | hgone⟩ := ih
    · have hvisits : Prog.Visits (finishRestore (planRestoreMoves cfg d₀)) t u := by
        rcases hstart with ⟨-, hv⟩ | hv
        · exact hv
        · cases hv with
          | look hv =>
            change Prog.Visits (if t.marks .journal then _ else _) t u at hv
            rw [if_pos hundoing.journal] at hv
            split at hv
            · cases hv
            rename_i r hread
            exact hv
      obtain ⟨hlive', h'⟩ := wp_visits hundoing.finishRestore_wp hvisits
      exact ⟨hlive.trans hlive', h'⟩
    · -- with the journal and the request gone, a start does nothing
      have hnot : (performPendingRestore cfg (planRestoreMoves cfg d₀)).wp (fun _ => False) (fun _ _ => True)
          (fun _ _ => True) t := by
        rw [performPendingRestore, wp_bind, wp_read, id, hgone.journal, hgone.request]
        trivial
      rcases hstart with ⟨hj, -⟩ | hv
      · rw [hgone.journal] at hj
        cases hj
      · exact (wp_visits hnot hv).elim

end

/-! ### Between the starts -/

def Disk.write (d : Disk) (p : Place) (f : File) : Disk := { d with files := d.files.insert p f }

/-- What happens between two starts: a staged file vanishes, or the running identity
writes a file where there was none. -/
inductive Between : Disk → Disk → Prop
  | vanished {d : Disk} (m : Name) : Between d (d.remove (.staged m))
  | wrote {d : Disk} {n : Name} {f : File} : d.at? (.live n) = none → f.origin = .since →
      Between d (d.write (.live n) f)

theorem Safe.between (h : Safe cfg d₀ d) (hb : Between d d') : Safe cfg d₀ d' := by
  cases hb with
  | vanished m =>
    refine h.congr (fun n => ?_) fun a => ?_
    · rw [Disk.at?_remove, if_neg (by exact nofun)]
    · rw [Disk.at?_remove, if_neg (by exact nofun)]
  | @wrote n f hfree ho =>
    have haside : ∀ a, (d.write (.live n) f).at? (.aside a) = d.at? (.aside a) :=
      fun a => AList.lookup_insert_ne (by exact nofun)
    have hlive : ∀ n' g, d.at? (.live n') = some g → (d.write (.live n) f).at? (.live n') = some g := by
      intro n' g hg
      refine (AList.lookup_insert_ne ?_).trans hg
      intro h
      cases h
      cases hfree.symm.trans hg
    refine ⟨fun n' g hk hg => ?_, fun n' g hk hg => hlive n' g (h.copied n' g hk hg)⟩
    rw [haside]
    exact (h.preserved n' g hk hg).imp_right fun h => ⟨h.1, hlive n' g h.2⟩

/-- The disk on which a journal is written, with a new directory for what is set aside. -/
structure Journalled (d₀ : Disk) : Prop where
  journal : d₀.marks .journal
  fresh : Fresh d₀
  live : ∀ n f, d₀.at? (.live n) = some f → f.origin = .before
  staged : ∀ m f, d₀.at? (.staged m) = some f → f.origin = .staged

/-- A step of a start, or between two. -/
def Since (cfg : Settings) (moves : List RestoreMove) (d d' : Disk) : Prop :=
  Started cfg moves d d' ∨ Between d d'

theorem safe_of_since (h₀ : Journalled d₀)
    (h : Relation.ReflTransGen (Since cfg (planRestoreMoves cfg d₀)) d₀ d) : Safe cfg d₀ d := by
  induction h with
  | refl => exact ⟨fun n f _ hf => .inr ⟨h₀.fresh _, hf⟩, fun _ _ _ hf => hf⟩
  | tail _ hs ih =>
    rcases hs with (⟨-, hv⟩ | hv) | hb
    · exact wp_visits (finishRestore_safe ih) hv
    · exact wp_visits (performPendingRestore_safe ih) hv
    · exact ih.between hb

def Refuses (cfg : Settings) (d₀ d : Disk) : Prop :=
  (∀ t, ¬ Prog.Visits (finishRestore (planRestoreMoves cfg d₀)) d t) ∧
    ∀ r t, Prog.Ends (finishRestore (planRestoreMoves cfg d₀)) d r t → ∃ e, r = .error e

/-- The start, over any number of interruptions, puts back what was set aside and moves
no live file that the restore did not install; the journal goes only at its end. -/
def PutsBack (cfg : Settings) (d₀ d : Disk) : Prop :=
  ∀ t, Relation.ReflTransGen (Started cfg (planRestoreMoves cfg d₀)) d t →
    LiveKept d t ∧ (t.marks .journal = false → Withdrawn cfg d₀ t) ∧
      (t.marks .journal → ∀ r t', Prog.Ends (finishRestore (planRestoreMoves cfg d₀)) t r t' →
        r = .ok () ∧ Withdrawn cfg d₀ t' ∧ LiveKept d t')

theorem refuses_of_error {e : WithdrawError} (hstuck : performable (planRestoreMoves cfg d₀) d = false)
    (h : undoPlan (planRestoreMoves cfg d₀) d = .error e) : Refuses cfg d₀ d := by
  have hwp : (finishRestore (planRestoreMoves cfg d₀)).wp (fun _ => False) (fun _ _ => False)
      (fun _ _ => True) d := by
    rw [finishRestore, wp_bind, wp_read, hstuck, Bool.not_false, if_pos rfl, withdrawJournal,
      wp_bind, wp_read, h]
    trivial
  refine ⟨fun t ht => wp_visits hwp ht, fun r t ht => ?_⟩
  cases r with
  | error e => exact ⟨e, rfl⟩
  | ok u => exact ((wp_ends hwp ht).1 u rfl).elim

theorem Undoing.putsBack (h : Undoing cfg d₀ d) : PutsBack cfg d₀ d := by
  intro t ht
  obtain ⟨hlive, hundoing | hgone⟩ := h.started ht
  · refine ⟨hlive, fun hj => ?_, fun _ r t' hends => ?_⟩
    · rw [hundoing.journal] at hj
      cases hj
    · have hwp := wp_ends hundoing.finishRestore_wp hends
      cases r with
      | error e => exact (hwp.2 e rfl).elim
      | ok u =>
        obtain ⟨hlive', hgone⟩ := hwp.1 u rfl
        exact ⟨rfl, hgone, hlive.trans hlive'⟩
  · refine ⟨hlive, fun _ => hgone, fun hj => ?_⟩
    rw [hgone.journal] at hj
    cases hj

theorem at?_rename_source (hab : a ≠ b) : (d.rename a b).at? a = none := by
  cases ha : d.at? a with
  | none => rw [Disk.rename, ha, ha]
  | some f => rw [Disk.at?_rename ha, if_neg hab, if_pos rfl]

theorem visits_renamed {k : Unit → Restoring} (hmem : (a, b) ∈ back) (hab : a ≠ b) :
    ∃ t, Prog.Visits ((forM back fun (a, b) => .act (Disk.rename a b) : Restoring) >>= k) d t ∧
      t.at? a = none := by
  induction back generalizing d with
  | nil => cases hmem
  | cons x back ih =>
    rcases mem_cons.mp hmem with rfl | hmem
    · exact ⟨_, .here, at?_rename_source hab⟩
    · obtain ⟨t, ht, hnone⟩ := ih (d := d.rename x.1 x.2) hmem
      exact ⟨t, .step ht, hnone⟩

theorem PutsBack.guessRight (h : PutsBack cfg d₀ d) (hj : d.marks .journal)
    (hstuck : performable (planRestoreMoves cfg d₀) d = false)
    (hback : undoPlan (planRestoreMoves cfg d₀) d = .ok back) : GuessRight cfg d₀ d := by
  intro n m f hmem hmade hf
  by_contra ho
  have hin : (.live n, notCompleted n) ∈ back := by
    rw [(undoPlan_plan.mp hback).2]
    exact List.mem_map.mpr ⟨_, mem_filter.mpr ⟨mem_reverse.mpr hmem, hmade⟩, rfl⟩
  obtain ⟨t, ht, hnone⟩ := visits_renamed (d := d) (k := fun _ => closeWithdrawn) hin (by rintro ⟨⟩)
  have hvisits : Prog.Visits (finishRestore (planRestoreMoves cfg d₀)) d t := by
    refine .look ?_
    change Prog.Visits (if (!performable (planRestoreMoves cfg d₀) d) then _ else _) d t
    rw [hstuck]
    refine .look ?_
    simp only [hback]
    exact ht
  have hlive := (h t (.single (.inl ⟨hj, hvisits⟩))).1 n f hf ho
  cases hnone.symm.trans hlive

/-- A start that finds the restore cannot be completed refuses, or puts everything back
and moves nothing else, exactly when every file it takes for an installed one was
installed by this restore. -/
theorem putBack_iff_guessRight (h₀ : Journalled d₀)
    (hd : Relation.ReflTransGen (Since cfg (planRestoreMoves cfg d₀)) d₀ d) (hj : d.marks .journal)
    (hstuck : performable (planRestoreMoves cfg d₀) d = false) :
    Refuses cfg d₀ d ∨ PutsBack cfg d₀ d ↔ Refuses cfg d₀ d ∨ GuessRight cfg d₀ d := by
  have hsafe := safe_of_since h₀ hd
  cases hplan : undoPlan (planRestoreMoves cfg d₀) d with
  | error e =>
    have hrefuses := refuses_of_error hstuck hplan
    exact ⟨fun _ => .inl hrefuses, fun _ => .inl hrefuses⟩
  | ok back =>
    constructor
    · exact .imp_right fun h => h.guessRight hj hstuck hplan
    · exact .imp_right fun h => (Undoing.mk hj hstuck h hsafe ⟨back, hplan⟩).putsBack

end

/-! ### Two restores that cannot be completed -/

def tailStaged : Disk where
  files := Disk.listed [(.live snapshotLedger, ⟨[1], .before⟩), (.staged snapshotLedger, ⟨[2], .staged⟩),
    (.staged tailFileName, ⟨[3], .staged⟩)]
  marks m := m = .journal

theorem journalled_tailStaged : Journalled tailStaged where
  journal := rfl
  fresh a := by
    by_contra hne
    obtain ⟨f, hf⟩ := Option.ne_none_iff_exists'.mp hne
    simpa using Disk.mem_of_lookup_listed hf
  live n f hf := by
    have := Disk.mem_of_lookup_listed hf
    simp_all
  staged m f hf := by
    have := Disk.mem_of_lookup_listed hf
    simp only [mem_cons, Prod.mk.injEq, reduceCtorEq, false_and, not_mem_nil, or_false, false_or] at this
    rcases this with ⟨-, rfl⟩ | ⟨-, rfl⟩ <;> rfl

theorem guessRight_of_all {cfg : Settings} {d₀ d : Disk}
    (h : (planRestoreMoves cfg d₀).all fun mv => !made (planRestoreMoves cfg d₀) d mv ||
      mv.kind != .install || (d.at? mv.dest).all fun f => f.origin == .staged) :
    GuessRight cfg d₀ d := by
  intro n m f hmem hmade hf
  have hmv := List.all_eq_true.mp h _ hmem
  change (!made (planRestoreMoves cfg d₀) d (installMove n m) || MoveKind.install != .install ||
    (d.at? (.live n)).all (·.origin == .staged)) at hmv
  rw [hmade, hf] at hmv
  simpa using hmv

/-- The restore was interrupted with the record in place, the staged tail vanished, and
the next start puts the former record back. -/
theorem tailStaged_put_back : ∃ d, Relation.ReflTransGen
    (Since plainSettings (planRestoreMoves plainSettings tailStaged)) tailStaged d ∧
      d.at? (.live snapshotLedger) = some ⟨[2], .staged⟩ ∧
      performable (planRestoreMoves plainSettings tailStaged) d = false ∧
      PutsBack plainSettings tailStaged d := by
  let moves := planRestoreMoves plainSettings tailStaged
  let good (d : Disk) : Bool :=
    d.marks .journal && d.at? (.live snapshotLedger) == some ⟨[2], .staged⟩ && !performable moves d &&
      (moves.all fun mv => !made moves d mv || mv.kind != .install ||
        (d.at? mv.dest).all (·.origin == .staged)) && !((finishRestore moves).exec [] d).1.isEmpty
  have hrun : ((finishRestore moves).exec [] tailStaged).1.any
      (fun t => good (t.remove (.staged tailFileName))) := by decide +kernel
  obtain ⟨t, ht, hgood⟩ := List.any_eq_true.mp hrun
  simp only [good, Bool.and_eq_true, beq_iff_eq, Bool.not_eq_true', isEmpty_eq_false_iff] at hgood
  obtain ⟨⟨⟨⟨hj, hlive⟩, hstuck⟩, hguess⟩, hsteps⟩ := hgood
  have hd : Relation.ReflTransGen (Since plainSettings moves) tailStaged (t.remove (.staged tailFileName)) :=
    .tail (.single (.inl (.inl ⟨rfl, visits_of_exec ht⟩))) (.inr (.vanished _))
  refine ⟨_, hd, hlive, hstuck, ?_⟩
  have hend := (putBack_iff_guessRight journalled_tailStaged hd hj hstuck).mpr
    (.inr (guessRight_of_all hguess))
  refine hend.resolve_left fun hrefuses => ?_
  obtain ⟨u, hu⟩ := exists_mem_of_ne_nil _ hsteps
  exact hrefuses.1 u (visits_of_exec hu)

/-- Both staged files vanished, and the running identity wrote a tail of its own. -/
def tailWritten : Disk :=
  ((tailStaged.remove (.staged snapshotLedger)).remove (.staged tailFileName)).write (.live tailFileName)
    ⟨[4], .since⟩

/-- The tail that the identity wrote is taken for the staged one and moved away. -/
theorem tailWritten_moved_away : Journalled tailStaged ∧
    Relation.ReflTransGen
    (Since plainSettings (planRestoreMoves plainSettings tailStaged)) tailStaged tailWritten ∧
      tailWritten.marks .journal ∧
      performable (planRestoreMoves plainSettings tailStaged) tailWritten = false ∧
      tailWritten.at? (.live tailFileName) = some ⟨[4], .since⟩ ∧
      (∃ d', Prog.Ends (finishRestore (planRestoreMoves plainSettings tailStaged)) tailWritten (.ok ()) d' ∧
        d'.at? (.live tailFileName) = none) ∧
      ¬ (Refuses plainSettings tailStaged tailWritten ∨ PutsBack plainSettings tailStaged tailWritten) := by
  have hj : tailWritten.marks .journal := rfl
  have hstuck : performable (planRestoreMoves plainSettings tailStaged) tailWritten = false := by
    decide +kernel
  have hwrote : tailWritten.at? (.live tailFileName) = some ⟨[4], .since⟩ := by decide +kernel
  have hrun : ((finishRestore (planRestoreMoves plainSettings tailStaged)).exec [] tailWritten).2.any
      (fun x => x.1.isOk && (x.2.at? (.live tailFileName)).isNone) := by
    decide +kernel
  obtain ⟨r, d', hends, hb⟩ := exists_ends_of_exec hrun
  rw [Bool.and_eq_true, Option.isNone_iff_eq_none] at hb
  cases r with
  | error e => cases hb.1
  | ok u =>
    have hd : Relation.ReflTransGen
      (Since plainSettings (planRestoreMoves plainSettings tailStaged)) tailStaged
        tailWritten := by
      refine .tail (.tail (.single (.inr (.vanished snapshotLedger)))
        (.inr (.vanished tailFileName))) (.inr ?_)
      exact .wrote (by decide +kernel) rfl
    refine ⟨journalled_tailStaged, hd, hj, hstuck, hwrote, ⟨d', hends, hb.2⟩, ?_⟩
    rintro (hrefuses | hputs)
    · obtain ⟨e, he⟩ := hrefuses.2 _ _ hends
      cases he
    · have hlive := ((hputs _ .refl).2.2 hj _ _ hends).2.2 tailFileName _ hwrote (by decide)
      cases hb.2.symm.trans hlive

end AiiOs.Continuity
