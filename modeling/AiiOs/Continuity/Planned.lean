import AiiOs.Continuity.Restore

/-! The files of a restore: what its steps do to them, and the moves a plan holds. -/

namespace AiiOs.Continuity
open Lib List Option

/-! ### Steps on the disk -/

namespace Disk
variable {d : Disk} {a b p : Place} {f : File}

theorem has_iff : d.has p ↔ ∃ f, d.at? p = some f := isSome_iff_exists

theorem has_eq_false : d.has p = false ↔ d.at? p = none := by
  rw [has, isSome_eq_false_iff, isNone_iff_eq_none]

theorem at?_rename (h : d.at? a = some f) :
    (d.rename a b).at? p = if p = b then some f else if p = a then none else d.at? p := by
  rw [rename, h]
  change AList.lookup p ((d.files.erase a).insert b f) = _
  by_cases hb : p = b
  · rw [if_pos hb, hb, AList.lookup_insert]
  · rw [if_neg hb, AList.lookup_insert_ne hb]
    by_cases ha : p = a
    · rw [if_pos ha, ha, AList.lookup_erase]
    · rw [if_neg ha, AList.lookup_erase_ne ha]
      rfl

theorem at?_copy (h : d.at? a = some f) : (d.copy a b).at? p = if p = b then some f else d.at? p := by
  rw [copy, h]
  change AList.lookup p (d.files.insert b f) = _
  by_cases hb : p = b
  · rw [if_pos hb, hb, AList.lookup_insert]
  · rw [if_neg hb, AList.lookup_insert_ne hb]
    rfl

theorem marks_rename : (d.rename a b).marks = d.marks := by
  rw [rename]
  split <;> rfl

theorem marks_copy : (d.copy a b).marks = d.marks := by
  rw [copy]
  split <;> rfl

theorem at?_remove : (d.remove a).at? p = if p = a then none else d.at? p := by
  by_cases h : p = a
  · rw [if_pos h, h]
    exact AList.lookup_erase a d.files
  · rw [if_neg h]
    exact AList.lookup_erase_ne h

theorem mem_liveNames {n : Name} : n ∈ d.liveNames ↔ d.has (.live n) := by
  rw [has, at?, AList.lookup_isSome, liveNames, mem_filterMap]
  constructor
  · rintro ⟨_ | _ | _, hmem, ⟨⟩⟩
    exact hmem
  · exact fun h => ⟨_, h, rfl⟩

theorem mem_stagedNames {n : Name} : n ∈ d.stagedNames ↔ d.has (.staged n) := by
  rw [has, at?, AList.lookup_isSome, stagedNames, mem_filterMap]
  constructor
  · rintro ⟨_ | _ | _, hmem, ⟨⟩⟩
    exact hmem
  · exact fun h => ⟨_, h, rfl⟩

theorem at?_removeStaging : d.removeStaging.at? p = match p with
    | .staged _ => none
    | p => d.at? p := by
  have hfold : ∀ (l : List Name) (d : Disk), (l.foldl (fun d n => d.remove (.staged n)) d).at? p =
        if ∃ n ∈ l, p = .staged n then none else d.at? p := by
    intro l
    induction l with
    | nil => simp
    | cons n l ih =>
      intro d
      rw [foldl_cons, ih, at?_remove]
      by_cases hn : p = .staged n
      · simp [hn]
      · simp [hn]
  rw [removeStaging, hfold]
  cases p with
  | live n => simp
  | aside n => simp
  | staged n =>
    by_cases hmem : n ∈ d.stagedNames
    · rw [if_pos ⟨n, hmem, rfl⟩]
    · have hnone : d.at? (.staged n) = none := by
        rw [← not_isSome_iff_eq_none]
        exact fun h => hmem (mem_stagedNames.mpr h)
      simp [hnone]

theorem marks_removeStaging : d.removeStaging.marks = d.marks := by
  have hfold : ∀ (l : List Name) (d : Disk), (l.foldl (fun d n => d.remove (.staged n)) d).marks =
      d.marks := by
    intro l
    induction l with
    | nil => exact fun _ => rfl
    | cons n l ih => exact fun d => ih _
  exact hfold _ d

def listed (l : List (Place × File)) : AList fun _ : Place => File :=
  l.foldr (fun x files => files.insert x.1 x.2) ∅

theorem mem_of_lookup_listed {l : List (Place × File)} (h : (listed l).lookup p = some f) : (p, f) ∈ l := by
  induction l with
  | nil => cases h
  | cons x l ih =>
    change (AList.insert x.1 x.2 (listed l)).lookup p = some f at h
    by_cases hp : p = x.1
    · subst hp
      rw [AList.lookup_insert] at h
      cases h
      exact mem_cons_self
    · rw [AList.lookup_insert_ne hp] at h
      exact mem_cons_of_mem _ (ih h)

end Disk

/-! ### Names -/

inductive Named (cfg : Settings) : Name → Name → Prop
  | ledger : Named cfg cfg.ledger snapshotLedger
  | database : Named cfg cfg.db snapshotDB
  | sidecar {side : Name} : side ∈ databaseSidecars → Named cfg (cfg.db ++ side) (snapshotDB ++ side)
  | tail : Named cfg tailFileName tailFileName
  | segment {n : Name} : isSegmentName n → Named cfg n n
  | key {n : Name} : witnessKeysDir <+: n → Named cfg n n

section
variable {cfg : Settings} {n m : Name}

theorem not_segment_of_key (h : witnessKeysDir <+: n) : isSegmentName n = false := by
  obtain ⟨r, rfl⟩ := h
  have hne : (charsOf "segment-").isPrefixOf (witnessKeysDir ++ r) = false := rfl
  rw [isSegmentName, hne, Bool.false_and]

theorem slash_mem_of_key (h : witnessKeysDir <+: n) : '/' ∈ n := h.subset (by decide)

theorem isDatabaseSidecar_iff : isDatabaseSidecar n ↔ ∃ side ∈ databaseSidecars, n = snapshotDB ++ side := by
  simp [isDatabaseSidecar]

theorem setName_of_not_own (h : n ∉ cfg.ledger :: cfg.db :: databaseSidecars.map (cfg.db ++ ·)) :
    setName cfg n = n := by
  simp only [mem_cons, not_or] at h
  rw [setName, if_neg h.1, if_neg h.2.1, if_neg]
  rw [Bool.and_eq_true, isDatabaseSidecar_iff]
  rintro ⟨hpre, side, hside, hdrop⟩
  refine h.2.2 (List.mem_map.mpr ⟨side, hside, ?_⟩)
  obtain ⟨r, rfl⟩ := isPrefixOf_iff_prefix.mp hpre
  rw [append_assoc, drop_left] at hdrop
  rw [append_assoc, ← append_cancel_left hdrop]

theorem Named.setName_eq (h : Named cfg n m) : setName cfg n = m := by
  have hd := cfg.distinct
  simp only [nodup_cons, mem_cons, not_or] at hd
  obtain ⟨⟨hledger, hledgerTail, hledgerSides⟩, ⟨hdbTail, -⟩, htailSides, -⟩ := hd
  cases h with
  | ledger => exact if_pos rfl
  | database => rw [setName, if_neg (Ne.symm hledger), if_pos rfl]
  | @sidecar side hside =>
    have hne : cfg.db ++ side ≠ cfg.ledger := fun h => hledgerSides (List.mem_map.mpr ⟨side, hside, h⟩)
    have hdash : ['-'] <+: side ∧ side ≠ [] :=
      (by decide : ∀ side ∈ databaseSidecars, ['-'] <+: side ∧ side ≠ []) side hside
    have hdb : cfg.db ++ side ≠ cfg.db := fun h => hdash.2 (by simpa using h)
    rw [setName, if_neg hne, if_neg hdb, drop_left, if_pos]
    rw [Bool.and_eq_true, isDatabaseSidecar_iff, isPrefixOf_iff_prefix, prefix_append_right_inj]
    exact ⟨hdash.1, side, hside, rfl⟩
  | tail =>
    refine setName_of_not_own ?_
    simp only [mem_cons, not_or]
    exact ⟨Ne.symm hledgerTail, Ne.symm hdbTail, htailSides⟩
  | segment hn =>
    refine setName_of_not_own fun hmem => ?_
    rw [(cfg.plain _ hmem).2] at hn
    cases hn
  | key hn => exact setName_of_not_own fun hmem => (cfg.plain _ hmem).1 (slash_mem_of_key hn)

theorem installName_key {cfg : Names} (hn : witnessKeysDir <+: n) : installName cfg n = some n := by
  have hne : ∀ k, ¬ witnessKeysDir <+: k → n ≠ k := by
    rintro k hk rfl
    exact hk hn
  have hsides : ∀ side ∈ databaseSidecars, ¬ witnessKeysDir <+: snapshotDB ++ side := by decide
  have hside : ¬ isDatabaseSidecar n := by
    rw [isDatabaseSidecar_iff]
    rintro ⟨side, hside, hn'⟩
    exact hne _ (hsides side hside) hn'
  rw [installName, if_neg (hne _ (by decide)), if_neg (hne _ (by decide)), if_neg (hne _ (by decide)),
    if_neg (by rw [not_segment_of_key hn]; exact Bool.false_ne_true), if_neg hside,
    if_pos (List.isPrefixOf_iff_prefix.mpr hn)]

theorem Named.installName_eq (h : Named cfg n m) : installName cfg m = some n := by
  cases h with
  | ledger => rfl
  | database => rfl
  | sidecar hside =>
    simp only [databaseSidecars, mem_cons, not_mem_nil, or_false] at hside
    rcases hside with rfl | rfl | rfl <;> rfl
  | tail => rfl
  | segment hn =>
    have hne : ∀ k, isSegmentName k = false → n ≠ k := by
      rintro k hk rfl
      rw [hk] at hn
      cases hn
    rw [installName, if_neg (hne _ rfl), if_neg (hne _ rfl), if_neg (hne _ rfl), if_pos hn]
  | key hn => exact installName_key hn

theorem named_of_installName (h : installName cfg m = some n) : Named cfg n m := by
  rw [installName] at h
  split_ifs at h with h1 h2 h3 h4 h5 h6
  · cases h
    rw [h1]
    exact .database
  · cases h
    rw [h2]
    exact .ledger
  · cases h
    rw [h3]
    exact .tail
  · cases h
    exact .segment h4
  · cases h
    obtain ⟨side, hside, rfl⟩ := isDatabaseSidecar_iff.mp h5
    exact .sidecar hside
  · cases h
    exact .key (List.isPrefixOf_iff_prefix.mp h6)

theorem Named.live_eq {n' : Name} (h : Named cfg n m) (h' : Named cfg n' m) : n = n' :=
  Option.some.inj (h.installName_eq.symm.trans h'.installName_eq)

theorem Named.set_eq {m' : Name} (h : Named cfg n m) (h' : Named cfg n m') : m = m' :=
  h.setName_eq.symm.trans h'.setName_eq

end

/-! ### The moves of a plan -/

section
variable {cfg : Settings} {d : Disk} {n : Name} {mv : RestoreMove}

theorem preserved_named (h : n ∈ preserved cfg d) :
    Named cfg n (setName cfg n) ∧ d.has (.live n) ∧ ¬ witnessKeysDir <+: n := by
  simp only [preserved, mem_filter, mem_append, mem_cons, List.mem_map, not_mem_nil, or_false] at h
  obtain ⟨hn, hlive⟩ := h
  have hown : ∀ k ∈ cfg.ledger :: cfg.db :: databaseSidecars.map (cfg.db ++ ·), ¬ witnessKeysDir <+: k :=
    fun k hk hpre => (cfg.plain k hk).1 (slash_mem_of_key hpre)
  rcases hn with ((rfl | ⟨side, hside, rfl⟩) | rfl | rfl) | ⟨-, hseg⟩
  · have hnamed : Named cfg cfg.db snapshotDB := .database
    exact ⟨hnamed.setName_eq.symm ▸ hnamed, hlive, hown _ (by simp)⟩
  · have hnamed : Named cfg (cfg.db ++ side) (snapshotDB ++ side) := .sidecar hside
    refine ⟨hnamed.setName_eq.symm ▸ hnamed, hlive, hown _ ?_⟩
    exact mem_cons_of_mem _ (mem_cons_of_mem _ (List.mem_map.mpr ⟨side, hside, rfl⟩))
  · have hnamed : Named cfg cfg.ledger snapshotLedger := .ledger
    exact ⟨hnamed.setName_eq.symm ▸ hnamed, hlive, hown _ (by simp)⟩
  · have hnamed : Named cfg tailFileName tailFileName := .tail
    exact ⟨hnamed.setName_eq.symm ▸ hnamed, hlive, by decide⟩
  · have hnamed : Named cfg n n := .segment hseg
    refine ⟨hnamed.setName_eq.symm ▸ hnamed, hlive, fun hpre => ?_⟩
    rw [not_segment_of_key hpre] at hseg
    cases hseg

theorem copied_named (cfg : Settings) (h : n ∈ copied d) :
    Named cfg n (setName cfg n) ∧ d.has (.live n) ∧ witnessKeysDir <+: n := by
  rw [copied, mem_filter, Disk.mem_liveNames, isKeyName, Bool.and_eq_true, isPrefixOf_iff_prefix] at h
  have hnamed : Named cfg n n := .key h.2.1
  exact ⟨hnamed.setName_eq.symm ▸ hnamed, h.1, h.2.1⟩

def keptKind (cfg : Settings) (d : Disk) (n : Name) : Option MoveKind :=
  if n ∈ preserved cfg d then some .preserve else if n ∈ copied d then some .copy else none

theorem keptKind_named {k : MoveKind} (h : keptKind cfg d n = some k) :
    Named cfg n (setName cfg n) ∧ d.has (.live n) ∧ k ≠ .install := by
  rw [keptKind] at h
  split_ifs at h with hp hc
  · cases h
    exact ⟨(preserved_named hp).1, (preserved_named hp).2.1, by decide⟩
  · cases h
    exact ⟨(copied_named cfg hc).1, (copied_named cfg hc).2.1, by decide⟩

def keepMoves (cfg : Settings) (d : Disk) : List RestoreMove :=
  (preserved cfg d).map (keepMove cfg .preserve) ++ (copied d).map (keepMove cfg .copy)

theorem planRestoreMoves_eq : planRestoreMoves cfg d = keepMoves cfg d ++ installMoves cfg d := rfl

theorem mem_keepMoves : mv ∈ keepMoves cfg d ↔ ∃ n k, keptKind cfg d n = some k ∧ mv = keepMove cfg k n := by
  simp only [keepMoves, mem_append, List.mem_map]
  constructor
  · rintro (⟨n, hn, rfl⟩ | ⟨n, hn, rfl⟩)
    · exact ⟨n, _, if_pos hn, rfl⟩
    · have hp : n ∉ preserved cfg d := fun h => (preserved_named h).2.2 (copied_named cfg hn).2.2
      exact ⟨n, _, by rw [keptKind, if_neg hp, if_pos hn], rfl⟩
  · rintro ⟨n, k, hk, rfl⟩
    rw [keptKind] at hk
    split_ifs at hk with hp hc
    · cases hk
      exact .inl ⟨n, hp, rfl⟩
    · cases hk
      exact .inr ⟨n, hc, rfl⟩

def installMove (n m : Name) : RestoreMove := ⟨.staged m, .live n, .install⟩

theorem mem_installMoves :
    mv ∈ installMoves cfg d ↔ ∃ n m, Named cfg n m ∧ d.has (.staged m) ∧ mv = installMove n m := by
  simp only [installMoves, mem_filterMap, mem_filter, Disk.mem_stagedNames, map_eq_some_iff,
    decide_eq_true_eq]
  constructor
  · rintro ⟨m, ⟨hm, -⟩, n, hn, rfl⟩
    exact ⟨n, m, named_of_installName hn, hm, rfl⟩
  · rintro ⟨n, m, hn, hm, rfl⟩
    refine ⟨m, ⟨hm, ?_⟩, n, hn.installName_eq, rfl⟩
    rintro rfl
    cases hn.installName_eq

theorem keptFrom_plan : keptFrom (planRestoreMoves cfg d) (.live n) =
    (keptKind cfg d n).map fun k => keepMove cfg k n := by
  have hfilter : (planRestoreMoves cfg d).filter (·.kind ≠ .install) = keepMoves cfg d := by
    have hkeep : ∀ mv ∈ keepMoves cfg d, decide (mv.kind ≠ .install) := by
      intro mv hmv
      obtain ⟨n, k, hk, rfl⟩ := mem_keepMoves.mp hmv
      exact decide_eq_true (keptKind_named hk).2.2
    have hinstall : ∀ mv ∈ installMoves cfg d, ¬ decide (mv.kind ≠ .install) := by
      intro mv hmv
      obtain ⟨n, m, -, -, rfl⟩ := mem_installMoves.mp hmv
      simp [installMove]
    rw [planRestoreMoves_eq, filter_append, filter_eq_self.mpr hkeep,
      filter_eq_nil_iff.mpr hinstall, append_nil]
  rw [keptFrom, hfilter]
  cases hfind : (keepMoves cfg d).reverse.find? fun k => k.source = .live n with
  | none =>
    cases hk : keptKind cfg d n with
    | none => rfl
    | some k =>
      have hmem : keepMove cfg k n ∈ (keepMoves cfg d).reverse :=
        mem_reverse.mpr (mem_keepMoves.mpr ⟨n, k, hk, rfl⟩)
      have := List.find?_eq_none.mp hfind _ hmem
      simp [keepMove] at this
  | some mv =>
    obtain ⟨n', k, hk, rfl⟩ := mem_keepMoves.mp (mem_reverse.mp (mem_of_find?_eq_some hfind))
    have hsource := find?_some hfind
    simp only [keepMove, decide_eq_true_eq, Place.live.injEq] at hsource
    rw [← hsource, hk]
    rfl

end

end AiiOs.Continuity
