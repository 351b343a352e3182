import AiiOs.Continuity.Resume
import AiiOs.Lib.Fold

/-! A restore that cannot be completed and is put back. Which installs were made is
guessed from the disk, and the guess is made anew at every start. -/

namespace AiiOs.Continuity
open Lib List

variable {x : RestoreMove} {mv : RestoreMove}

section
variable {cfg : Settings} {d₀ d : Disk} {n m : Name}

/-! ### The moves of a plan, once each -/

theorem nodup_liveNames : d.liveNames.Nodup := by
  refine .filterMap ?_ d.files.keys_nodup
  rintro (n | n | n) (n' | n' | n') p hp hp'
  all_goals simp_all

theorem nodup_stagedNames : d.stagedNames.Nodup := by
  refine .filterMap ?_ d.files.keys_nodup
  rintro (n | n | n) (n' | n' | n') p hp hp'
  all_goals simp_all

theorem nodup_preserved : (preserved cfg d).Nodup := by
  refine .filter _ (nodup_append.mpr ⟨?_, nodup_liveNames.filter _, ?_⟩)
  · refine (List.Perm.nodup_iff ?_).mp cfg.distinct
    rw [perm_iff_count]
    simp only [count_cons, count_append, count_nil]
    omega
  · intro a ha b hb hab
    subst hab
    have hseg := (mem_filter.mp hb).2
    have hnot : isSegmentName a = false := by
      simp only [mem_append, mem_cons, not_mem_nil, or_false] at ha
      rcases ha with (rfl | ha) | rfl | rfl
      · exact (cfg.plain _ (by simp)).2
      · exact (cfg.plain a (mem_cons_of_mem _ (mem_cons_of_mem _ ha))).2
      · exact (cfg.plain _ (by simp)).2
      · rfl
    rw [hnot] at hseg
    cases hseg

theorem nodup_planRestoreMoves : (planRestoreMoves cfg d).Nodup := by
  have hsource : ∀ k n n', keepMove cfg k n = keepMove cfg k n' → n = n' := by
    intro k n n' h
    cases h
    rfl
  have hkeep : (keepMoves cfg d).Nodup := by
    refine nodup_append.mpr ⟨?_, ?_, ?_⟩
    · exact nodup_preserved.map (hsource .preserve)
    · exact (nodup_liveNames.filter _).map (hsource .copy)
    · intro a ha b hb hab
      obtain ⟨x, -, rfl⟩ := List.mem_map.mp ha
      obtain ⟨y, -, rfl⟩ := List.mem_map.mp hb
      cases hab
  have hinstall : (installMoves cfg d).Nodup := by
    refine .filterMap ?_ (nodup_stagedNames.filter _)
    intro x y mv hx hy
    obtain ⟨n, -, hn⟩ := Option.map_eq_some_iff.mp hx
    obtain ⟨n', -, hn'⟩ := Option.map_eq_some_iff.mp hy
    rw [← hn'] at hn
    cases hn
    rfl
  refine nodup_append.mpr ⟨hkeep, hinstall, ?_⟩
  rintro a ha b hb rfl
  obtain ⟨n, k, hk, rfl⟩ := mem_keepMoves.mp ha
  obtain ⟨n', m', -, -, h⟩ := mem_installMoves.mp hb
  cases h

theorem planRestoreMoves_cases (h : mv ∈ planRestoreMoves cfg d₀) :
    (∃ n k, keptKind cfg d₀ n = some k ∧ mv = keepMove cfg k n) ∨ ∃ n m, Named cfg n m ∧
      mv = installMove n m := by
  rw [planRestoreMoves_eq, mem_append] at h
  rcases h with h | h
  · exact .inl (mem_keepMoves.mp h)
  · obtain ⟨n, m, hn, -, hmv⟩ := mem_installMoves.mp h
    exact .inr ⟨n, m, hn, hmv⟩

/-! ### What is taken to have been made -/

theorem made_keep {k : MoveKind} (hk : keptKind cfg d₀ n = some k) :
    made (planRestoreMoves cfg d₀) d (keepMove cfg k n) = d.has (.aside (setName cfg n)) :=
  if_neg (keptKind_named hk).2.2

theorem made_install : made (planRestoreMoves cfg d₀) d (installMove n m) ↔
    d.has (.staged m) = false ∧ d.has (.live n) ∧
      ∀ k, keptKind cfg d₀ n = some k → k = .preserve ∧ d.has (.aside (setName cfg n)) := by
  simp only [made, installMove, keptFrom_plan]
  cases keptKind cfg d₀ n with
  | none => simp
  | some k => simp [keepMove, and_assoc]

theorem setName_of_copied (h : keptKind cfg d₀ n = some .copy) : setName cfg n = n := by
  rw [keptKind] at h
  split_ifs at h with hp hc
  · cases h
  · exact (Named.key (copied_named cfg hc).2.2).setName_eq

theorem named_ne_notCompleted (hn : Named cfg n m) (x : Name) : Place.aside m ≠ notCompleted x := by
  intro h
  have hm : m = notCompletedDir ++ x := Place.aside.inj h
  have hname := hn.installName_eq
  have hside : isDatabaseSidecar (notCompletedDir ++ x) = false := rfl
  have hseg : isSegmentName (notCompletedDir ++ x) = false := rfl
  have hkey : witnessKeysDir.isPrefixOf (notCompletedDir ++ x) = false := rfl
  rw [hm] at hname
  cases hname

theorem eq_of_made_of_name_eq {y : RestoreMove} (hx : x ∈ planRestoreMoves cfg d₀)
    (hy : y ∈ planRestoreMoves cfg d₀) (hmx : made (planRestoreMoves cfg d₀) d x)
    (hmy : made (planRestoreMoves cfg d₀) d y) (hkx : x.kind ≠ .preserve) (hky : y.kind ≠ .preserve)
    (hname : x.dest.name = y.dest.name) : x = y := by
  have hcopy : ∀ {n k}, keptKind cfg d₀ n = some k → k ≠ .preserve → k = .copy := by
    intro n k hk hne
    cases k with
    | preserve => exact absurd rfl hne
    | copy => rfl
    | install => exact absurd rfl (keptKind_named hk).2.2
  rcases planRestoreMoves_cases hx with ⟨n, k, hk, rfl⟩ | ⟨n, m, hn, rfl⟩
  · obtain rfl := hcopy hk hkx
    rcases planRestoreMoves_cases hy with ⟨n', k', hk', rfl⟩ | ⟨n', m', hn', rfl⟩
    · obtain rfl := hcopy hk' hky
      change setName cfg n = setName cfg n' at hname
      rw [setName_of_copied hk, setName_of_copied hk'] at hname
      rw [hname]
    · change setName cfg n = n' at hname
      rw [setName_of_copied hk] at hname
      subst hname
      cases ((made_install.mp hmy).2.2 _ hk).1
  · rcases planRestoreMoves_cases hy with ⟨n', k', hk', rfl⟩ | ⟨n', m', hn', rfl⟩
    · obtain rfl := hcopy hk' hky
      change n = setName cfg n' at hname
      rw [setName_of_copied hk'] at hname
      subst hname
      cases ((made_install.mp hmx).2.2 _ hk').1
    · change n = n' at hname
      subst hname
      rw [hn.set_eq hn']

end

/-! ### The renames that put back -/

def undoTarget (mv : RestoreMove) : Place :=
  if mv.kind = .preserve then mv.source else notCompleted mv.dest.name

def undoRename (mv : RestoreMove) : Place × Place := (mv.dest, undoTarget mv)

variable {back : List (Place × Place)}

section
variable {moves : List RestoreMove} {d : Disk}

def undone (moves : List RestoreMove) (d : Disk) (l : List (RestoreMove × Nat)) : Undo :=
  let l := (l.map Prod.fst).filter (made moves d)
  ⟨l.map undoRename, ((l.filter fun mv => mv.kind ≠ .preserve).map RestoreMove.dest).reverse,
    (l.map undoTarget).reverse⟩

def Allowed (moves : List RestoreMove) (d : Disk) (l : List (RestoreMove × Nat))
    (x : RestoreMove × Nat) : Prop :=
  if made moves d x.1 then
    if x.1.kind = .preserve then
      d.has x.1.source → ∃ y ∈ l, made moves d y.1 ∧ y.1.kind ≠ .preserve ∧ y.1.dest = x.1.source
    else d.has (notCompleted x.1.dest.name) = false ∧
      ∀ y ∈ l, made moves d y.1 → undoTarget y.1 ≠ notCompleted x.1.dest.name
  else x.1.kind = .install ∨ d.has x.1.source

variable {l : List (RestoreMove × Nat)}

theorem mem_undone_vacated {p : Place} :
    p ∈ (undone moves d l).vacated ↔ ∃ y ∈ l, made moves d y.1 ∧ y.1.kind ≠ .preserve ∧ y.1.dest = p := by
  simp [undone, and_assoc, and_comm]

theorem mem_undone_claimed {p : Place} :
    p ∈ (undone moves d l).claimed ↔ ∃ y ∈ l, made moves d y.1 ∧ undoTarget y.1 = p := by
  simp [undone, and_assoc, and_comm, and_left_comm]

theorem undoMove_undone (l : List (RestoreMove × Nat)) (x : RestoreMove × Nat) :
    (Allowed moves d l x → undoMove moves d (undone moves d l) x = .ok (undone moves d (l ++ [x]))) ∧
      (¬ Allowed moves d l x → ∃ e, undoMove moves d (undone moves d l) x = .error e) := by
  obtain ⟨mv, i⟩ := x
  rw [Allowed, undoMove]
  simp only [mem_undone_vacated, mem_undone_claimed]
  by_cases hmade : made moves d mv
  · simp only [hmade]
    -- put back where it was, or moved out of the way
    by_cases hkind : mv.kind = .preserve
    · simp only [hkind]
      by_cases htaken : d.has mv.source ∧ ¬ ∃ y ∈ l, made moves d y.1 ∧ y.1.kind ≠ .preserve ∧
        y.1.dest = mv.source
      · rw [if_pos htaken]
        exact ⟨fun h => absurd (h htaken.1) htaken.2, fun _ => ⟨_, rfl⟩⟩
      · rw [if_neg htaken]
        refine ⟨fun _ => ?_, fun h => absurd (fun hs => by_contra fun hn => htaken ⟨hs, hn⟩) h⟩
        simp [undone, hmade, hkind, undoRename, undoTarget]
    · simp only [hkind]
      by_cases hfree : d.has (notCompleted mv.dest.name)
      · rw [hfree]
        exact ⟨fun h => (Bool.false_ne_true h.1.symm).elim, fun _ => ⟨_, rfl⟩⟩
      · rw [if_neg hfree]
        by_cases hclaimed : ∃ y ∈ l, made moves d y.1 ∧ undoTarget y.1 = notCompleted mv.dest.name
        · rw [if_pos hclaimed]
          obtain ⟨y, hy, hm, ht⟩ := hclaimed
          exact ⟨fun h => absurd ht (h.2 y hy hm), fun _ => ⟨_, rfl⟩⟩
        · rw [if_neg hclaimed]
          refine ⟨fun _ => ?_, fun h =>
            absurd ⟨by simpa using hfree, fun y hy hm ht => hclaimed ⟨y, hy, hm, ht⟩⟩ h⟩
          simp [undone, hmade, hkind, undoRename, undoTarget]
  · simp only [hmade]
    by_cases hthere : mv.kind = .install ∨ d.has mv.source
    · rw [if_pos hthere]
      refine ⟨fun _ => ?_, fun h => absurd hthere h⟩
      simp [undone, hmade]
    · rw [if_neg hthere]
      exact ⟨fun h => absurd h hthere, fun _ => ⟨_, rfl⟩⟩

theorem undoPlan_eq_ok : undoPlan moves d = .ok back ↔
    (∀ l₁ x l₂, moves.zipIdx.reverse = l₁ ++ x :: l₂ → Allowed moves d l₁ x) ∧
      back = (moves.reverse.filter (made moves d)).map undoRename := by
  have hfold := @foldlM_isPrefix _ _ _ (undoMove moves d) (undone moves d) (Allowed moves d)
    (fun l x => (undoMove_undone l x).1) (fun l x => (undoMove_undone l x).2) moves.zipIdx.reverse []
  have hback : (undone moves d moves.zipIdx.reverse).back =
      (moves.reverse.filter (made moves d)).map undoRename := by
    rw [undone, map_reverse, zipIdx_map_fst]
  change (moves.zipIdx.reverse.foldlM (undoMove moves d) (undone moves d [])).map Undo.back = _ ↔ _
  rw [← hback, map_eq_ok]
  constructor
  · rintro ⟨u, hu, rfl⟩
    obtain ⟨hall, rfl⟩ := hfold.mp hu
    exact ⟨hall, rfl⟩
  · rintro ⟨hall, rfl⟩
    exact ⟨_, hfold.mpr ⟨hall, rfl⟩, rfl⟩

end

section
variable {cfg : Settings} {d₀ d : Disk} {n m : Name}

structure Undoable (cfg : Settings) (d₀ d : Disk) : Prop where
  /-- Only an installed file is in the way of one that was set aside. -/
  vacated : ∀ n, keptKind cfg d₀ n = some .preserve → d.has (.aside (setName cfg n)) →
    d.has (.live n) → ∃ m, installMove n m ∈ planRestoreMoves cfg d₀ ∧
      made (planRestoreMoves cfg d₀) d (installMove n m)
  free : ∀ mv ∈ planRestoreMoves cfg d₀, made (planRestoreMoves cfg d₀) d mv → mv.kind ≠ .preserve →
    d.has (notCompleted mv.dest.name) = false
  there : ∀ n k, keptKind cfg d₀ n = some k → d.has (.aside (setName cfg n)) = false → d.has (.live n)

theorem installMove_mem_of_split {l₁ l₂ : List RestoreMove}
    (h : (planRestoreMoves cfg d₀).reverse = l₁ ++ mv :: l₂) (hmv : mv.kind ≠ .install)
    (hx : x ∈ planRestoreMoves cfg d₀) (hkind : x.kind = .install) : x ∈ l₁ := by
  rw [planRestoreMoves_eq, mem_append] at hx
  rw [planRestoreMoves_eq, reverse_append] at h
  have hinstall : x ∈ installMoves cfg d₀ := by
    refine hx.resolve_left fun hx => ?_
    obtain ⟨n, k, hk, rfl⟩ := mem_keepMoves.mp hx
    exact (keptKind_named hk).2.2 hkind
  rcases append_eq_append_iff.mp h with ⟨l, rfl, -⟩ | ⟨l, hl, hl'⟩
  · exact mem_append_left _ (mem_reverse.mpr hinstall)
  · cases l with
    | nil =>
      rw [append_nil] at hl
      rw [← hl]
      exact mem_reverse.mpr hinstall
    | cons y l =>
      cases hl'
      have hmem : mv ∈ (installMoves cfg d₀).reverse := by simp [hl]
      obtain ⟨n', m', -, -, rfl⟩ := mem_installMoves.mp (mem_reverse.mp hmem)
      exact absurd rfl hmv

theorem allowed_of_undoable (h : Undoable cfg d₀ d) {l₁ l₂ : List (RestoreMove × Nat)} {x : RestoreMove × Nat}
    (hl : (planRestoreMoves cfg d₀).zipIdx.reverse = l₁ ++ x :: l₂) :
    Allowed (planRestoreMoves cfg d₀) d l₁ x := by
  obtain ⟨mv, i⟩ := x
  have hsplit : (planRestoreMoves cfg d₀).reverse = l₁.map Prod.fst ++ mv :: l₂.map Prod.fst := by
    have := congrArg (List.map Prod.fst) hl
    rwa [map_reverse, zipIdx_map_fst, map_append, map_cons] at this
  have hmem : mv ∈ planRestoreMoves cfg d₀ := by
    rw [← mem_reverse, hsplit]
    exact mem_append_right _ mem_cons_self
  have hbefore : ∀ y ∈ l₁, y.1 ∈ planRestoreMoves cfg d₀ := by
    intro y hy
    rw [← mem_reverse, hsplit]
    exact mem_append_left _ (List.mem_map_of_mem hy)
  rw [Allowed]
  -- a file set aside goes back to its place, an install out of the way; what was not made stays
  split_ifs with hmade hkind
  · intro hsource
    rcases planRestoreMoves_cases hmem with ⟨n, k, hk, rfl⟩ | ⟨n, m, -, rfl⟩
    · subst hkind
      obtain ⟨m, hinstall, hm⟩ := h.vacated n hk hmade hsource
      have hin := installMove_mem_of_split hsplit (by exact nofun) hinstall rfl
      obtain ⟨y, hy, hym⟩ := List.mem_map.mp hin
      rw [← hym] at hm
      exact ⟨y, hy, hm, by rw [hym]; exact nofun, by rw [hym]; rfl⟩
    · cases hkind
  · refine ⟨h.free mv hmem hmade hkind, fun y hy hym ht => ?_⟩
    by_cases hyk : y.1.kind = .preserve
    · rcases planRestoreMoves_cases (hbefore y hy) with ⟨n, k, -, hyk'⟩ | ⟨n, m, -, hyk'⟩
      · rw [undoTarget, if_pos hyk, hyk'] at ht
        cases ht
      · rw [hyk'] at hyk
        cases hyk
    · rw [undoTarget, if_neg hyk] at ht
      have hname : y.1.dest.name = mv.dest.name := append_cancel_left (Place.aside.inj ht)
      have heq := eq_of_made_of_name_eq (hbefore y hy) hmem hym hmade hyk hkind hname
      have hnodup : (l₁.map Prod.fst ++ mv :: l₂.map Prod.fst).Nodup := by
        rw [← hsplit]
        exact nodup_reverse.mpr nodup_planRestoreMoves
      refine (nodup_append.mp hnodup).2.2 y.1 (List.mem_map_of_mem hy) mv mem_cons_self heq
  · rcases planRestoreMoves_cases hmem with ⟨n, k, hk, rfl⟩ | ⟨n, m, -, rfl⟩
    · rw [made_keep hk] at hmade
      exact .inr (h.there n k hk (by simpa using hmade))
    · exact .inl rfl

theorem undoable_of_allowed (h : ∀ l₁ x l₂, (planRestoreMoves cfg d₀).zipIdx.reverse = l₁ ++ x :: l₂ →
      Allowed (planRestoreMoves cfg d₀) d l₁ x) : Undoable cfg d₀ d := by
  have hsplit : ∀ mv ∈ planRestoreMoves cfg d₀, ∃ l : List (RestoreMove × Nat), ∃ i,
      (∀ y ∈ l, y.1 ∈ planRestoreMoves cfg d₀) ∧ Allowed (planRestoreMoves cfg d₀) d l (mv, i) := by
    intro mv hmv
    rw [← zipIdx_map_fst 0 (planRestoreMoves cfg d₀)] at hmv
    obtain ⟨⟨_, i⟩, hx, rfl⟩ := List.mem_map.mp hmv
    obtain ⟨l₁, l₂, hl⟩ := append_of_mem (mem_reverse.mpr hx)
    refine ⟨l₁, i, fun y hy => ?_, h l₁ _ l₂ hl⟩
    have hin : y ∈ (planRestoreMoves cfg d₀).zipIdx := by
      rw [← mem_reverse, hl]
      exact mem_append_left _ hy
    exact fst_mem_of_mem_zipIdx hin
  refine ⟨?_, ?_, ?_⟩
  · intro n hk haside hlive
    have hmem : keepMove cfg .preserve n ∈ planRestoreMoves cfg d₀ :=
      mem_append_left _ (mem_keepMoves.mpr ⟨n, _, hk, rfl⟩)
    obtain ⟨l, i, hl, hallowed⟩ := hsplit _ hmem
    have hpreserve : (keepMove cfg .preserve n).kind = .preserve := rfl
    rw [Allowed, if_pos ((made_keep hk).trans haside)] at hallowed
    obtain ⟨y, hy, hym, -, hdest⟩ := hallowed hlive
    rcases planRestoreMoves_cases (hl y hy) with ⟨n', k', -, hyk⟩ | ⟨n', m', -, hyk⟩
    · rw [hyk] at hdest
      cases hdest
    · rw [hyk] at hdest
      cases hdest
      exact ⟨m', hyk ▸ hl y hy, hyk ▸ hym⟩
  · intro mv hmv hmade hkind
    obtain ⟨l, i, -, hallowed⟩ := hsplit mv hmv
    rw [Allowed, if_pos hmade, if_neg hkind] at hallowed
    exact hallowed.1
  · intro n k hk haside
    have hmem : keepMove cfg k n ∈ planRestoreMoves cfg d₀ :=
      mem_append_left _ (mem_keepMoves.mpr ⟨n, _, hk, rfl⟩)
    obtain ⟨l, i, -, hallowed⟩ := hsplit _ hmem
    rw [Allowed, if_neg (by rw [made_keep hk, haside]; exact Bool.false_ne_true)] at hallowed
    exact hallowed.resolve_left (keptKind_named hk).2.2

theorem undoPlan_plan : undoPlan (planRestoreMoves cfg d₀) d = .ok back ↔ Undoable cfg d₀ d ∧ back =
      ((planRestoreMoves cfg d₀).reverse.filter (made (planRestoreMoves cfg d₀) d)).map undoRename := by
  rw [undoPlan_eq_ok]
  exact and_congr_left fun _ => ⟨undoable_of_allowed, fun h _ _ _ => allowed_of_undoable h⟩

end

/-! ### One rename -/

section
variable {cfg : Settings} {d₀ d : Disk} {n m : Name}

/-- Each live file of the plan is at its place, or aside if it was to be moved there. -/
structure Safe (cfg : Settings) (d₀ d : Disk) : Prop where
  preserved : ∀ n f, keptKind cfg d₀ n = some .preserve → d₀.at? (.live n) = some f →
    d.at? (.aside (setName cfg n)) = some f ∨
      d.at? (.aside (setName cfg n)) = none ∧ d.at? (.live n) = some f
  copied : ∀ n f, keptKind cfg d₀ n = some .copy → d₀.at? (.live n) = some f → d.at? (.live n) = some f

theorem Safe.has_live (h : Safe cfg d₀ d) (hk : keptKind cfg d₀ n = some .copy) : d.has (.live n) := by
  obtain ⟨f, hf⟩ := Disk.has_iff.mp (keptKind_named hk).2.1
  exact Disk.has_iff.mpr ⟨f, h.copied n f hk hf⟩

variable {mv : RestoreMove}

theorem dest_of_made (hmv : mv ∈ planRestoreMoves cfg d₀)
    (hmade : made (planRestoreMoves cfg d₀) d mv) : d.has mv.dest := by
  rcases planRestoreMoves_cases hmv with ⟨n, k, hk, rfl⟩ | ⟨n, m, -, rfl⟩
  · exact (made_keep hk).symm.trans hmade
  · exact (made_install.mp hmade).2.1

/-- A move that is the next to be put back: the installs over a file set aside are. -/
structure Next (cfg : Settings) (d₀ d : Disk) (mv : RestoreMove) : Prop where
  mem : mv ∈ planRestoreMoves cfg d₀
  made : made (planRestoreMoves cfg d₀) d mv
  first : mv.kind ≠ .install → ∀ n m, installMove n m ∈ planRestoreMoves cfg d₀ →
    AiiOs.Continuity.made (planRestoreMoves cfg d₀) d (installMove n m) = false

def putBack (d : Disk) (mv : RestoreMove) : Disk := d.rename mv.dest (undoTarget mv)

section
variable (h : Next cfg d₀ d mv)
include h

theorem Next.has_putBack (p : Place) : (putBack d mv).has p =
    if p = undoTarget mv then true else if p = mv.dest then false else d.has p := by
  obtain ⟨f, hf⟩ := Disk.has_iff.mp (dest_of_made h.mem h.made)
  rw [Disk.has, putBack, Disk.at?_rename hf]
  split_ifs <;> rfl

theorem Next.has_aside (hn : Named cfg n m) :
    (putBack d mv).has (.aside m) = if .aside m = mv.dest then false else d.has (.aside m) := by
  rw [h.has_putBack, if_neg]
  rcases planRestoreMoves_cases h.mem with ⟨n', k, hk, rfl⟩ | ⟨n', m', -, rfl⟩
  · rw [undoTarget]
    split_ifs
    · exact nofun
    · exact named_ne_notCompleted hn _
  · exact named_ne_notCompleted hn _

theorem Next.has_staged : (putBack d mv).has (.staged m) = d.has (.staged m) := by
  rw [h.has_putBack, if_neg, if_neg]
  · rcases planRestoreMoves_cases h.mem with ⟨n', k, hk, rfl⟩ | ⟨n', m', -, rfl⟩ <;> exact nofun
  · rw [undoTarget]
    rcases planRestoreMoves_cases h.mem with ⟨n', k, hk, rfl⟩ | ⟨n', m', -, rfl⟩
    · split_ifs <;> exact nofun
    · exact nofun

theorem Next.has_live : (putBack d mv).has (.live n) =
    if mv = keepMove cfg .preserve n then true else if .live n = mv.dest then false else d.has (.live n) := by
  rw [h.has_putBack]
  refine if_congr ?_ rfl rfl
  rcases planRestoreMoves_cases h.mem with ⟨n', k, hk, rfl⟩ | ⟨n', m', -, rfl⟩
  · by_cases hkind : k = .preserve
    · subst hkind
      constructor
      · intro h
        cases (show Place.live n = .live n' from h)
        rfl
      · intro h
        cases h
        rfl
    · rw [undoTarget, if_neg (by exact hkind)]
      refine ⟨nofun, fun h => ?_⟩
      cases h
      exact absurd rfl hkind
  · exact ⟨nofun, nofun⟩

theorem Next.made_putBack (hx : x ∈ planRestoreMoves cfg d₀) :
    AiiOs.Continuity.made (planRestoreMoves cfg d₀) (putBack d mv) x ↔
      AiiOs.Continuity.made (planRestoreMoves cfg d₀) d x ∧ x ≠ mv := by
  rcases planRestoreMoves_cases hx with ⟨n, k, hk, rfl⟩ | ⟨n, m, hn, rfl⟩
  -- a kept file is told by its place aside, which is the destination of its own move alone
  · rw [made_keep hk, made_keep hk, h.has_aside (keptKind_named hk).1]
    have heq : .aside (setName cfg n) = mv.dest ↔ keepMove cfg k n = mv := by
      refine ⟨fun hd => ?_, fun hd => hd ▸ rfl⟩
      rcases planRestoreMoves_cases h.mem with ⟨n', k', hk', rfl⟩ | ⟨n', m', -, rfl⟩
      · have hset : setName cfg n = setName cfg n' := Place.aside.inj hd
        obtain rfl := (keptKind_named hk).1.live_eq (hset ▸ (keptKind_named hk').1)
        cases hk.symm.trans hk'
        rfl
      · cases hd
    by_cases hd : .aside (setName cfg n) = mv.dest
    · simp [hd, heq.mp hd]
    · simp [hd, mt heq.mpr hd]
  -- an install is told by its live place, to which a file set aside also goes back
  · rw [made_install, made_install, h.has_staged, h.has_live]
    rcases planRestoreMoves_cases h.mem with ⟨n', k', hk', rfl⟩ | ⟨n', m', hn', rfl⟩
    · have hne : installMove n m ≠ keepMove cfg k' n' := by
        intro h
        cases h
      by_cases hnn : n = n'
      · -- the file set aside is put back only when no install over it is thought to be made
        subst hnn
        have hnot := h.first (keptKind_named hk').2.2 n m hx
        have hfalse : ¬ (d.has (.staged m) = false ∧ d.has (.live n) ∧ ∀ k, keptKind cfg d₀ n = some k →
            k = .preserve ∧ d.has (.aside (setName cfg n))) := by
          rw [← made_install, hnot]
          exact Bool.false_ne_true
        refine ⟨fun hm => ?_, fun hm => absurd hm.1 hfalse⟩
        have haside := (hm.2.2 k' hk').2
        rw [h.has_aside (keptKind_named hk').1] at haside
        simp [keepMove] at haside
      · have hlive : keepMove cfg k' n' ≠ keepMove cfg .preserve n := by
          intro h
          cases h
          exact hnn rfl
        have hkept : ∀ k, keptKind cfg d₀ n = some k →
            (putBack d (keepMove cfg k' n')).has (.aside (setName cfg n)) =
              d.has (.aside (setName cfg n)) := by
          intro k hk
          rw [h.has_aside (keptKind_named hk).1, if_neg]
          intro hd
          have hset : setName cfg n = setName cfg n' := Place.aside.inj hd
          exact hnn ((keptKind_named hk).1.live_eq (hset ▸ (keptKind_named hk').1))
        rw [if_neg hlive, and_iff_left hne]
        refine and_congr_right fun _ => and_congr_right fun _ => forall₂_congr fun k hk => ?_
        rw [hkept k hk]
    · rw [if_neg (by rintro ⟨⟩)]
      have hkept : ∀ k, keptKind cfg d₀ n = some k →
          (putBack d (installMove n' m')).has (.aside (setName cfg n)) = d.has (.aside (setName cfg n)) := by
        intro k hk
        rw [h.has_aside (keptKind_named hk).1, if_neg (by rintro ⟨⟩)]
      by_cases hnn : n = n'
      · subst hnn
        obtain rfl := hn.set_eq hn'
        simp [installMove]
      · have hne : installMove n m ≠ installMove n' m' := by
          intro h
          cases h
          exact hnn rfl
        have hlive : ¬ .live n = (installMove n' m').dest := fun h => hnn (Place.live.inj h)
        rw [if_neg hlive, and_iff_left hne]
        refine and_congr_right fun _ => and_congr_right fun _ => forall₂_congr fun k hk => ?_
        rw [hkept k hk]

theorem Next.undoable_putBack (hsafe : Safe cfg d₀ d) (hundo : Undoable cfg d₀ d) :
    Undoable cfg d₀ (putBack d mv) where
  vacated n hk haside hlive := by
    have hmem : keepMove cfg .preserve n ∈ planRestoreMoves cfg d₀ :=
      mem_append_left _ (mem_keepMoves.mpr ⟨n, _, hk, rfl⟩)
    have hmade := (h.made_putBack hmem).mp ((made_keep hk).trans haside)
    rw [h.has_live, if_neg hmade.2.symm] at hlive
    have hd : ¬ .live n = mv.dest := by
      intro hd
      rw [if_pos hd] at hlive
      cases hlive
    rw [if_neg hd] at hlive
    -- the install over the file was made and is not the move put back
    obtain ⟨m, hinstall, hm⟩ := hundo.vacated n hk ((made_keep hk).symm.trans hmade.1) hlive
    refine ⟨m, hinstall, (h.made_putBack hinstall).mpr ⟨hm, ?_⟩⟩
    rintro rfl
    exact hd rfl
  free x hx hmx hkind := by
    obtain ⟨hmade, hne⟩ := (h.made_putBack hx).mp hmx
    rw [h.has_putBack, if_neg]
    · split_ifs
      · rfl
      · exact hundo.free x hx hmade hkind
    · intro ht
      by_cases hk : mv.kind = .preserve
      · rcases planRestoreMoves_cases h.mem with ⟨n', k', hk', rfl⟩ | ⟨n', m', -, rfl⟩
        · rw [undoTarget, if_pos hk] at ht
          cases ht
        · cases hk
      · rw [undoTarget, if_neg hk] at ht
        have hname : x.dest.name = mv.dest.name := append_cancel_left (Place.aside.inj ht)
        exact hne (eq_of_made_of_name_eq hx h.mem hmade h.made hkind hk hname)
  there n k hk haside := by
    rw [h.has_live]
    split_ifs with hpres hd
    · rfl
    · rcases planRestoreMoves_cases h.mem with ⟨n', k', hk', rfl⟩ | ⟨n', m', hn', rfl⟩
      · cases hd
      · cases hd
        have haside' := ((made_install.mp h.made).2.2 k hk).2
        rw [h.has_aside (keptKind_named hk).1, if_neg (by exact nofun), haside'] at haside
        cases haside
    · have hmem : keepMove cfg k n ∈ planRestoreMoves cfg d₀ :=
        mem_append_left _ (mem_keepMoves.mpr ⟨n, _, hk, rfl⟩)
      by_cases hx : keepMove cfg k n = mv
      · subst hx
        cases k with
        | preserve => exact absurd rfl hpres
        | copy => exact hsafe.has_live hk
        | install => exact absurd rfl (keptKind_named hk).2.2
      · refine hundo.there n k hk ?_
        have hnot := mt (h.made_putBack hmem).mpr
        rw [made_keep hk, made_keep hk, haside] at hnot
        simpa [hx] using hnot

end

end

end AiiOs.Continuity
