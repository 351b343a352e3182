import AiiOs.Continuity.Planned

/-! A restore that is interrupted and started again. Its moves work on one file at a
time: a slot is the live place of a file, its place aside and its place in the staged
set, and each move takes one slot a step further. -/

namespace AiiOs.Continuity
open Lib List Option Prog

abbrev Slot := Option File × Option File × Option File

def Disk.slot (d : Disk) (n m : Name) : Slot := (d.at? (.live n), d.at? (.aside m), d.at? (.staged m))

/-- How far a slot has come from where it was when the journal was written. -/
inductive Reached : Option MoveKind → Slot → Slot → Prop
  | start {k x} : Reached k x x
  | aside {f s} : Reached (some .preserve) (some f, none, s) (none, some f, s)
  | replaced {f s} : Reached (some .preserve) (some f, none, some s) (some s, some f, none)
  | copied {f s} : Reached (some .copy) (some f, none, s) (some f, some f, s)
  | installed {g s} : Reached none (none, g, some s) (some s, g, none)

section
variable {cfg : Settings} {d₀ d : Disk} {n m : Name}

variable {f s : File}

variable {k : MoveKind}

theorem Reached.kept {g s l a t : Option File}
    (h : Reached (some k) (some f, g, s) (l, a, t)) : l = some f ∨ a = some f := by
  cases h with
  | start => exact .inl rfl
  | aside => exact .inr rfl
  | replaced => exact .inr rfl
  | copied => exact .inl rfl

variable {n' m' : Name}

def Outside (cfg : Settings) : Place → Prop
  | .live n => ∀ m, ¬ Named cfg n m
  | .aside m => ∀ n, ¬ Named cfg n m
  | .staged _ => False

structure Going (cfg : Settings) (d₀ d : Disk) : Prop where
  journal : d.marks .journal
  slots : ∀ n m, Named cfg n m → Reached (keptKind cfg d₀ n) (d₀.slot n m) (d.slot n m)
  outside : ∀ p, Outside cfg p → d.at? p = d₀.at? p

variable {d' : Disk}

theorem Going.update (h : Going cfg d₀ d) (hmarks : d'.marks = d.marks) (hn : Named cfg n m)
    (hother : ∀ n' m', n' ≠ n → m' ≠ m → d'.slot n' m' = d.slot n' m')
    (hslot : Reached (keptKind cfg d₀ n) (d₀.slot n m) (d'.slot n m))
    (houtside : ∀ p, Outside cfg p → d'.at? p = d.at? p) : Going cfg d₀ d' where
  journal := hmarks ▸ h.journal
  slots n' m' hn' := by
    by_cases heq : n' = n
    · subst heq
      obtain rfl := hn.set_eq hn'
      exact hslot
    · rw [hother n' m' heq fun hm => heq (hn'.live_eq (hm ▸ hn))]
      exact h.slots n' m' hn'
  outside p hp := (houtside p hp).trans (h.outside p hp)

/-! ### One move -/

theorem Going.live_of_not_aside (h : Going cfg d₀ d) (hk : keptKind cfg d₀ n = some k)
    (ha : d.at? (.aside (setName cfg n)) = none) :
    ∃ f, d₀.at? (.live n) = some f ∧ d.at? (.live n) = some f ∧ d₀.at? (.aside (setName cfg n)) = none ∧
      d.at? (.staged (setName cfg n)) = d₀.at? (.staged (setName cfg n)) := by
  obtain ⟨hn, hlive, -⟩ := keptKind_named hk
  obtain ⟨f, hf⟩ := Disk.has_iff.mp hlive
  have hslot := h.slots n _ hn
  rw [hk, Disk.slot, Disk.slot, ha, hf] at hslot
  generalize hl : d.at? (.live n) = l, hg : d₀.at? (.aside (setName cfg n)) = g,
    hs : d₀.at? (.staged (setName cfg n)) = s at hslot
  cases hslot
  exact ⟨f, hf, rfl, rfl, rfl⟩

theorem performMove_keep (hk : keptKind cfg d₀ n = some k) (h : Going cfg d₀ d) (i : Nat) :
    (performMove (keepMove cfg k n, i)).wp (Going cfg d₀)
      (fun _ d' => Going cfg d₀ d' ∧ d'.has (.aside (setName cfg n)) ∧ ∀ a, d.has (.aside a) →
        d'.has (.aside a))
      (fun _ _ => False) d := by
  obtain ⟨hn, -, hinstall⟩ := keptKind_named hk
  unfold performMove keepMove
  rw [wp_bind, wp_read, id, if_neg hinstall]
  -- a move made before the crash is not made again
  split
  · rename_i ha
    exact ⟨h, ha, fun _ h => h⟩
  rename_i ha
  obtain ⟨f, hf₀, hf, hg, hs⟩ := h.live_of_not_aside hk (Disk.has_eq_false.mp (by simpa using ha))
  have hsource : d.has (.live n) := Disk.has_iff.mpr ⟨f, hf⟩
  rw [hsource]
  have hstart : d₀.slot n (setName cfg n) = (some f, none, d.at? (.staged (setName cfg n))) := by
    rw [Disk.slot, hf₀, hg, hs]
  have hout : ∀ p, Outside cfg p → p ≠ .live n ∧ p ≠ .aside (setName cfg n) := by
    rintro p hp
    refine ⟨?_, ?_⟩
    · rintro rfl
      exact hp _ hn
    · rintro rfl
      exact hp _ hn
  by_cases hcopy : k = .copy
  · rw [if_pos hcopy]
    have hgoing : Going cfg d₀ (d.copy (.live n) (.aside (setName cfg n))) := by
      refine h.update Disk.marks_copy hn (fun n' m' _ hm => by simp [Disk.slot, Disk.at?_copy hf, hm]) ?_ ?_
      · rw [hk, hstart, hcopy]
        simpa [Disk.slot, Disk.at?_copy hf, hf] using Reached.copied
      · intro p hp
        rw [Disk.at?_copy hf, if_neg (hout p hp).2]
    refine ⟨hgoing, hgoing, ?_, ?_⟩
    · rw [Disk.has, Disk.at?_copy hf, if_pos rfl]
      rfl
    · intro a ha
      rw [Disk.has, Disk.at?_copy hf]
      split_ifs
      · rfl
      · exact ha
  · rw [if_neg hcopy]
    have hpreserve : k = .preserve := by
      cases k with
      | preserve => rfl
      | copy => exact absurd rfl hcopy
      | install => exact absurd rfl hinstall
    have hgoing : Going cfg d₀ (d.rename (.live n) (.aside (setName cfg n))) := by
      refine h.update Disk.marks_rename hn
        (fun n' m' hl hm => by simp [Disk.slot, Disk.at?_rename hf, hl, hm]) ?_ ?_
      · rw [hk, hstart, hpreserve]
        simpa [Disk.slot, Disk.at?_rename hf] using Reached.aside
      · intro p hp
        rw [Disk.at?_rename hf, if_neg (hout p hp).2, if_neg (hout p hp).1]
    refine ⟨hgoing, hgoing, ?_, ?_⟩
    · rw [Disk.has, Disk.at?_rename hf, if_pos rfl]
      rfl
    · intro a ha
      rw [Disk.has, Disk.at?_rename hf]
      split_ifs with h1 h2
      · rfl
      · cases h2
      · exact ha

def Placed (d₀ d : Disk) (n m : Name) : Prop :=
  (d.at? (.live n)).map File.content = (d₀.at? (.staged m)).map File.content

section
variable (hn : Named cfg n m) (hs : d₀.at? (.staged m) = some s) (h : Going cfg d₀ d)
  (hkept : ∀ k, keptKind cfg d₀ n = some k → d.has (.aside m))
include hn hs h hkept

theorem Going.install_cases : (d.at? (.staged m) = none ∧ d.at? (.live n) = some s) ∨
      (d.at? (.staged m) = some s ∧ d.at? (.live n) = none ∧
        Reached (keptKind cfg d₀ n) (d₀.slot n m) (some s, d.at? (.aside m), none)) ∨
      (d.at? (.staged m) = some s ∧ ∃ f, d.at? (.live n) = some f ∧ d₀.at? (.live n) = some f ∧
        (keptKind cfg d₀ n = some .preserve → d₀.has (.aside m))) := by
  have hslot := h.slots n m hn
  have hlive : ∀ k, keptKind cfg d₀ n = some k → (d₀.at? (.live n)).isSome :=
    fun k hk => (keptKind_named hk).2.1
  rw [Disk.has] at hkept
  rw [Disk.slot, Disk.slot, hs] at hslot
  rw [Disk.slot, hs, Disk.has]
  generalize keptKind cfg d₀ n = k, d.at? (.live n) = l, d.at? (.aside m) = a,
    d.at? (.staged m) = t, d₀.at? (.live n) = f, d₀.at? (.aside m) = g at *
  cases hslot with
  | start =>
    cases l with
    | none =>
      refine .inr (.inl ⟨rfl, rfl, ?_⟩)
      cases k with
      | none => exact .installed
      | some k => cases hlive k rfl
    | some f => exact .inr (.inr ⟨rfl, f, rfl, rfl, fun hk => hkept _ hk⟩)
  | aside => exact .inr (.inl ⟨rfl, rfl, .replaced⟩)
  | replaced => exact .inl ⟨rfl, rfl⟩
  | copied => exact .inr (.inr ⟨rfl, _, rfl, rfl, by rintro ⟨⟩⟩)
  | installed => exact .inl ⟨rfl, rfl⟩

theorem performMove_install (i : Nat) : (performMove (installMove n m, i)).wp (Going cfg d₀)
      (fun _ d' => Going cfg d₀ d' ∧ Placed d₀ d' n m ∧ (∀ a, d'.at? (.aside a) = d.at? (.aside a)) ∧
        ∀ n' m', Named cfg n' m' → Placed d₀ d n' m' → Placed d₀ d' n' m')
      (fun _ d' => d' = d ∧ ∃ f, d₀.at? (.live n) = some f ∧ f.content ≠ s.content ∧
        (keptKind cfg d₀ n = some .preserve → d₀.has (.aside m))) d := by
  simp only [performMove, installMove, wp_bind, wp_read, id]
  -- installed before; to be installed; a live file is still there
  rcases h.install_cases hn hs hkept with ⟨hst, hl⟩ | ⟨hst, hl, hreached⟩ | ⟨hst, f, hl, hf, hkind⟩
  · rw [hst, hl]
    refine ⟨h, ?_, fun _ => rfl, fun _ _ _ hp => hp⟩
    rw [Placed, hl, hs]
  · rw [hst, hl]
    have hgoing : Going cfg d₀ (d.rename (.staged m) (.live n)) := by
      refine h.update Disk.marks_rename hn
        (fun n' m' hl hm => by simp [Disk.slot, Disk.at?_rename hst, hl, hm]) ?_ ?_
      · simpa [Disk.slot, Disk.at?_rename hst] using hreached
      intro p hp
      rw [Disk.at?_rename hst, if_neg, if_neg]
      · rintro rfl
        exact hp
      · rintro rfl
        exact hp m hn
    refine ⟨hgoing, hgoing, ?_, ?_, ?_⟩
    · rw [Placed, Disk.at?_rename hst, if_pos rfl, hs]
    · intro a
      rw [Disk.at?_rename hst, if_neg (by rintro ⟨⟩), if_neg (by rintro ⟨⟩)]
    · intro n' m' hn' hp
      rw [Placed, Disk.at?_rename hst]
      by_cases heq : n' = n
      · subst heq
        obtain rfl := hn.set_eq hn'
        rw [if_pos rfl, hs]
      · rw [if_neg fun h => heq (Place.live.inj h)]
        exact hp
  · rw [hst, hl]
    by_cases hc : s.content = f.content
    · change Prog.wp _ _ _ (if s.content ≠ f.content then _ else _) d
      rw [if_neg (not_not_intro hc)]
      refine ⟨h, ?_, fun _ => rfl, fun _ _ _ hp => hp⟩
      rw [Placed, hl, hs, map_some, map_some, hc]
    · change Prog.wp _ _ _ (if s.content ≠ f.content then _ else _) d
      rw [if_pos hc]
      exact ⟨rfl, f, hf, .symm hc, hkind⟩

end

/-! ### All moves -/

def Fresh (d₀ : Disk) : Prop := ∀ a, d₀.at? (.aside a) = none

def KeysAgree (d₀ : Disk) : Prop :=
  ∀ n f g, witnessKeysDir <+: n → d₀.at? (.live n) = some f → d₀.at? (.staged n) = some g →
    f.content = g.content

theorem mem_preserved_of_named (hn : Named cfg n m) (hlive : d.has (.live n))
    (hkey : ¬ witnessKeysDir <+: n) : n ∈ preserved cfg d := by
  rw [preserved, mem_filter]
  refine ⟨?_, hlive⟩
  simp only [mem_append, mem_cons, List.mem_map, mem_filter]
  cases hn with
  | ledger => exact .inl (.inr (.inl rfl))
  | database => exact .inl (.inl (.inl rfl))
  | sidecar hside => exact .inl (.inl (.inr ⟨_, hside, rfl⟩))
  | tail => exact .inl (.inr (.inr (.inl rfl)))
  | segment hseg => exact .inr ⟨Disk.mem_liveNames.mpr hlive, hseg⟩
  | key hpre => exact absurd hpre hkey

theorem KeysAgree.content_eq (hkeys : KeysAgree d₀) (hfresh : Fresh d₀) (hn : Named cfg n m)
    (hf : d₀.at? (.live n) = some f) (hs : d₀.at? (.staged m) = some s)
    (hkind : keptKind cfg d₀ n = some .preserve → d₀.has (.aside m)) : f.content = s.content := by
  have hp : n ∉ preserved cfg d₀ := by
    intro hp
    have := hkind (if_pos hp)
    rw [Disk.has, hfresh m] at this
    cases this
  have hkey : witnessKeysDir <+: n := by
    by_contra hkey
    exact hp (mem_preserved_of_named hn (Disk.has_iff.mpr ⟨f, hf⟩) hkey)
  obtain rfl := hn.set_eq (.key hkey)
  exact hkeys m f s hkey hf hs

structure MovesDone (cfg : Settings) (d₀ d : Disk) : Prop extends Going cfg d₀ d where
  aside : ∀ n k, keptKind cfg d₀ n = some k → d.has (.aside (setName cfg n))
  placed : ∀ n m, Named cfg n m → d₀.has (.staged m) → Placed d₀ d n m

theorem keepMoves_wp (h : Going cfg d₀ d) (o : Nat) :
    (forM ((keepMoves cfg d₀).zipIdx o) performMove).wp (Going cfg d₀)
      (fun _ d' => Going cfg d₀ d' ∧ ∀ n k, keptKind cfg d₀ n = some k → d'.has (.aside (setName cfg n)))
      (fun _ _ => False) d := by
  refine wp_post (wp_forM (I := fun l t => Going cfg d₀ t ∧ ∀ x ∈ l, t.has x.1.dest) ?_ ?_) ?_
  · exact ⟨h, nofun⟩
  · rintro l₁ ⟨mv, i⟩ l₂ t hl ⟨ht, hdone⟩
    have hmem : (mv, i) ∈ (keepMoves cfg d₀).zipIdx o := by simp [hl]
    obtain ⟨n, k, hk, rfl⟩ := mem_keepMoves.mp (fst_mem_of_mem_zipIdx hmem)
    refine wp_post (performMove_keep hk ht i) ?_
    rintro _ t' ⟨ht', haside, hmono⟩
    refine ⟨ht', ?_⟩
    rintro ⟨mv', j⟩ hx
    rcases mem_append.mp hx with hx | hx
    · have hmem' : (mv', j) ∈ (keepMoves cfg d₀).zipIdx o := by
        rw [hl]
        exact mem_append_left _ hx
      obtain ⟨n', k', -, rfl⟩ := mem_keepMoves.mp (fst_mem_of_mem_zipIdx hmem')
      exact hmono _ (hdone _ hx)
    · cases mem_singleton.mp hx
      exact haside
  · rintro _ t ⟨ht, hdone⟩
    refine ⟨ht, fun n k hk => ?_⟩
    have hmem : keepMove cfg k n ∈ keepMoves cfg d₀ := mem_keepMoves.mpr ⟨n, k, hk, rfl⟩
    rw [← zipIdx_map_fst o (keepMoves cfg d₀)] at hmem
    obtain ⟨x, hx, hfst⟩ := List.mem_map.mp hmem
    have := hdone x hx
    rw [hfst] at this
    exact this

theorem installMoves_wp (hkeys : KeysAgree d₀) (h : Going cfg d₀ d)
    (haside : ∀ n k, keptKind cfg d₀ n = some k → d.has (.aside (setName cfg n))) (o : Nat) :
    (forM ((installMoves cfg d₀).zipIdx o) performMove).wp (Going cfg d₀)
      (fun _ => MovesDone cfg d₀) (fun _ _ => ¬ Fresh d₀) d := by
  refine wp_post (wp_forM (I := fun l t => Going cfg d₀ t ∧
      (∀ n k, keptKind cfg d₀ n = some k → t.has (.aside (setName cfg n))) ∧
        ∀ x ∈ l, ∀ n m, Named cfg n m → x.1 = installMove n m → Placed d₀ t n m) ?_ ?_) ?_
  · exact ⟨h, haside, nofun⟩
  · rintro l₁ ⟨mv, i⟩ l₂ t hl ⟨ht, hkept, hdone⟩
    have hmem : (mv, i) ∈ (installMoves cfg d₀).zipIdx o := by simp [hl]
    obtain ⟨n, m, hn, hstaged, rfl⟩ := mem_installMoves.mp (fst_mem_of_mem_zipIdx hmem)
    obtain ⟨s, hs⟩ := Disk.has_iff.mp hstaged
    refine wp_mono (performMove_install hn hs ht (fun k hk => hn.setName_eq ▸ hkept n k hk) i)
      (fun _ h => h) ?_ ?_
    · rintro _ t' ⟨ht', hplaced, hsame, hmono⟩
      refine ⟨ht', ?_, ?_⟩
      · intro n' k hk
        rw [Disk.has, hsame]
        exact hkept n' k hk
      · intro x hx n' m' hn' hxe
        rcases mem_append.mp hx with hx | hx
        · exact hmono n' m' hn' (hdone x hx n' m' hn' hxe)
        · cases mem_singleton.mp hx
          cases hxe
          exact hplaced
    · rintro _ t' ⟨-, f, hf, hne, hkind⟩ hfresh
      exact hne (hkeys.content_eq hfresh hn hf hs hkind)
  · rintro _ t ⟨ht, hkept, hdone⟩
    refine ⟨ht, hkept, fun n m hn hstaged => ?_⟩
    have hmem : installMove n m ∈ installMoves cfg d₀ := mem_installMoves.mpr ⟨n, m, hn, hstaged, rfl⟩
    rw [← zipIdx_map_fst o (installMoves cfg d₀)] at hmem
    obtain ⟨x, hx, hfst⟩ := List.mem_map.mp hmem
    exact hdone x hx n m hn hfst

theorem Going.performable (h : Going cfg d₀ d) : performable (planRestoreMoves cfg d₀) d := by
  rw [AiiOs.Continuity.performable, List.all_eq_true]
  intro mv hmv
  obtain ⟨hmv, hkind⟩ := mem_filter.mp hmv
  rcases mem_append.mp hmv with hmv | hmv
  · obtain ⟨n, k, hk, rfl⟩ := mem_keepMoves.mp hmv
    exact absurd (of_decide_eq_true hkind) (keptKind_named hk).2.2
  obtain ⟨n, m, hn, hstaged, rfl⟩ := mem_installMoves.mp hmv
  obtain ⟨s, hs⟩ := Disk.has_iff.mp hstaged
  have hslot := h.slots n m hn
  simp only [made, installMove, keptFrom_plan]
  rw [Disk.slot, Disk.slot, hs] at hslot
  simp only [Disk.has]
  generalize keptKind cfg d₀ n = k, hl : d.at? (.live n) = l, ha : d.at? (.aside m) = a,
    d.at? (.staged m) = t, d₀.at? (.live n) = f, d₀.at? (.aside m) = g at *
  cases hslot with
  | start => rfl
  | aside => rfl
  | replaced => simp [keepMove, hn.setName_eq, ha]
  | copied => rfl
  | installed => rfl

/-! ### The end -/

/-- What a completed restore leaves: the staged files with the earlier witness keys live,
the former live files aside, and other files as they were. -/
structure Restored (cfg : Settings) (d₀ d : Disk) : Prop where
  live : ∀ n m c, Named cfg n m → ((d.at? (.live n)).map File.content = some c ↔
    (d₀.at? (.staged m)).map File.content = some c ∨
      witnessKeysDir <+: n ∧ (d₀.at? (.live n)).map File.content = some c)
  others : ∀ n, (∀ m, ¬ Named cfg n m) → d.at? (.live n) = d₀.at? (.live n)
  aside : ∀ a f, d.at? (.aside a) = some f ↔
    ∃ n, (n ∈ preserved cfg d₀ ∨ n ∈ copied d₀) ∧ setName cfg n = a ∧ d₀.at? (.live n) = some f

theorem keptKind_iff : (∃ k, keptKind cfg d n = some k) ↔ n ∈ preserved cfg d ∨ n ∈ copied d := by
  rw [keptKind]
  by_cases hp : n ∈ preserved cfg d
  · simp [hp]
  · by_cases hc : n ∈ copied d
    · simp [hp]
    · simp [hp]

section
variable (h : MovesDone cfg d₀ d)
include h

theorem MovesDone.aside_eq (hfresh : Fresh d₀) (hn : Named cfg n m) (f : File) :
    d.at? (.aside m) = some f ↔ (n ∈ preserved cfg d₀ ∨ n ∈ copied d₀) ∧ d₀.at? (.live n) = some f := by
  have hslot := h.slots n m hn
  have haside := h.aside n
  rw [hn.setName_eq, Disk.has] at haside
  rw [Disk.slot, Disk.slot, hfresh m] at hslot
  rw [← keptKind_iff]
  generalize keptKind cfg d₀ n = k, d.at? (.live n) = l, d.at? (.aside m) = a,
    d.at? (.staged m) = t, d₀.at? (.live n) = l₀, d₀.at? (.staged m) = s at *
  cases hslot with
  | start =>
    refine ⟨by rintro ⟨⟩, ?_⟩
    rintro ⟨⟨k, hk⟩, -⟩
    cases haside k hk
  | aside => exact (and_iff_right ⟨_, rfl⟩).symm
  | replaced => exact (and_iff_right ⟨_, rfl⟩).symm
  | copied => exact (and_iff_right ⟨_, rfl⟩).symm
  | installed => exact ⟨by rintro ⟨⟩, by rintro ⟨⟨_, ⟨⟩⟩, -⟩⟩

theorem MovesDone.live_eq (hfresh : Fresh d₀) (hn : Named cfg n m)
    (hs : d₀.at? (.staged m) = none) :
    d.at? (.live n) = if n ∈ preserved cfg d₀ then none else d₀.at? (.live n) := by
  have hslot := h.slots n m hn
  have haside := h.aside n
  rw [hn.setName_eq, Disk.has] at haside
  rw [Disk.slot, Disk.slot, hfresh m, hs] at hslot
  have hp : n ∈ preserved cfg d₀ ↔ keptKind cfg d₀ n = some .preserve := by
    rw [keptKind]
    by_cases hp : n ∈ preserved cfg d₀
    · simp
    · by_cases hc : n ∈ copied d₀ <;> simp
  rw [if_congr hp rfl rfl]
  generalize keptKind cfg d₀ n = k, d.at? (.live n) = l, d.at? (.aside m) = a,
    d.at? (.staged m) = t, d₀.at? (.live n) = f at *
  cases hslot with
  | start =>
    rw [if_neg]
    intro hk
    cases haside _ hk
  | aside => rw [if_pos rfl]
  | copied => rw [if_neg (by rintro ⟨⟩)]

theorem MovesDone.restored (hkeys : KeysAgree d₀) (hfresh : Fresh d₀) : Restored cfg d₀ d where
  live n m c hn := by
    cases hs : d₀.at? (.staged m) with
    | some s =>
      have hplaced := h.placed n m hn (Disk.has_iff.mpr ⟨s, hs⟩)
      rw [Placed, hs] at hplaced
      rw [hplaced]
      refine ⟨.inl, ?_⟩
      rintro (hc | ⟨hkey, hc⟩)
      · exact hc
      · obtain rfl := hn.set_eq (.key hkey)
        obtain ⟨f, hf, rfl⟩ := map_eq_some_iff.mp hc
        rw [map_some, hkeys m f s hkey hf hs]
    | none =>
      rw [h.live_eq hfresh hn hs]
      split_ifs with hp
      · simp [(preserved_named hp).2.2]
      · refine ⟨fun hc => .inr ⟨?_, hc⟩, ?_⟩
        · obtain ⟨f, hf, -⟩ := map_eq_some_iff.mp hc
          by_contra hkey
          exact hp (mem_preserved_of_named hn (Disk.has_iff.mpr ⟨f, hf⟩) hkey)
        · rintro (hc | ⟨-, hc⟩)
          · cases hc
          · exact hc
  others n hn := h.outside (.live n) hn
  aside a f := by
    by_cases hnamed : ∃ n, Named cfg n a
    · obtain ⟨n, hn⟩ := hnamed
      rw [h.aside_eq hfresh hn]
      constructor
      · rintro ⟨hkept, hf⟩
        exact ⟨n, hkept, hn.setName_eq, hf⟩
      · rintro ⟨n', hkept, rfl, hf⟩
        obtain ⟨k, hk⟩ := keptKind_iff.mpr hkept
        obtain rfl := hn.live_eq (keptKind_named hk).1
        exact ⟨hkept, hf⟩
    · rw [h.outside (.aside a) fun n hn => hnamed ⟨n, hn⟩, hfresh a]
      refine ⟨nofun, ?_⟩
      rintro ⟨n, hkept, rfl, -⟩
      obtain ⟨k, hk⟩ := keptKind_iff.mpr hkept
      exact absurd ⟨n, (keptKind_named hk).1⟩ hnamed

end

theorem Restored.congr (h : Restored cfg d₀ d) (hlive : ∀ n, d'.at? (.live n) = d.at? (.live n))
    (haside : ∀ a, d'.at? (.aside a) = d.at? (.aside a)) : Restored cfg d₀ d' where
  live n m c hn := by
    rw [hlive]
    exact h.live n m c hn
  others n hn := (hlive n).trans (h.others n hn)
  aside a f := by
    rw [haside]
    exact h.aside a f

theorem Going.congr (h : Going cfg d₀ d) (hat : ∀ p, d'.at? p = d.at? p)
    (hjournal : d'.marks .journal) : Going cfg d₀ d' where
  journal := hjournal
  slots n m hn := by
    have hslot : d'.slot n m = d.slot n m := by rw [Disk.slot, hat, hat, hat, Disk.slot]
    rw [hslot]
    exact h.slots n m hn
  outside p hp := (hat p).trans (h.outside p hp)

def Kept (cfg : Settings) (d₀ d : Disk) : Prop :=
  ∀ n f, n ∈ preserved cfg d₀ ∨ n ∈ copied d₀ → d₀.at? (.live n) = some f →
    d.at? (.live n) = some f ∨ d.at? (.aside (setName cfg n)) = some f

theorem Going.kept (h : Going cfg d₀ d) : Kept cfg d₀ d := by
  intro n f hn hf
  obtain ⟨k, hk⟩ := keptKind_iff.mpr hn
  have hslot := h.slots n _ (keptKind_named hk).1
  rw [hk, Disk.slot, hf] at hslot
  exact hslot.kept

structure Over (cfg : Settings) (d₀ d : Disk) : Prop where
  journal : d.marks .journal = false
  request : d.marks .request = false
  kept : Kept cfg d₀ d
  restored : Fresh d₀ → Restored cfg d₀ d

def Standing (cfg : Settings) (d₀ d : Disk) : Prop := Going cfg d₀ d ∨ Over cfg d₀ d

theorem Standing.kept (h : Standing cfg d₀ d) : Kept cfg d₀ d := h.elim Going.kept Over.kept

theorem Over.removeStaging (h : Over cfg d₀ d) : Over cfg d₀ d.removeStaging where
  journal := by
    rw [Disk.marks_removeStaging]
    exact h.journal
  request := by
    rw [Disk.marks_removeStaging]
    exact h.request
  kept n f hn hf := by
    rw [Disk.at?_removeStaging, Disk.at?_removeStaging]
    exact h.kept n f hn hf
  restored hfresh := (h.restored hfresh).congr (fun _ => Disk.at?_removeStaging) fun _ =>
    Disk.at?_removeStaging

def Started (cfg : Settings) (moves : List RestoreMove) (d d' : Disk) : Prop :=
  (d.marks .journal ∧ Prog.Visits (finishRestore moves) d d') ∨
    Prog.Visits (performPendingRestore cfg moves) d d'

section
variable (hkeys : KeysAgree d₀)
include hkeys

theorem MovesDone.over (h : MovesDone cfg d₀ d)
    (hlive : ∀ n, d'.at? (.live n) = d.at? (.live n)) (haside : ∀ a, d'.at? (.aside a) = d.at? (.aside a))
    (hjournal : d'.marks .journal = false) (hrequest : d'.marks .request = false) : Over cfg d₀ d' where
  journal := hjournal
  request := hrequest
  kept n f hn hf := by
    rw [hlive, haside]
    exact h.toGoing.kept n f hn hf
  restored hfresh := (h.restored hkeys hfresh).congr hlive haside

theorem closeFinished_wp (h : MovesDone cfg d₀ d) {E : RestoreError → Disk → Prop} :
    closeFinished.wp (Standing cfg d₀) (fun _ => Over cfg d₀) E d := by
  -- until the journal goes, the restore is rolled forward
  have going : ∀ {d' : Disk}, (∀ p, d'.at? p = d.at? p) → d'.marks .journal → Standing cfg d₀ d' :=
    fun hat hjournal => .inl (h.toGoing.congr hat hjournal)
  have rest : ∀ d₁, (∀ p, d₁.at? p = d.at? p) → d₁.marks .journal →
      Prog.wp (Standing cfg d₀) (fun _ => Over cfg d₀) E (do
        .act (.mark .settle)
        removeMark .request
        removeMark .failed
        removeMark .newMachine
        removeMark .journal
        .act .removeStaging : Restoring) d₁ := by
    intro d₁ hat hj
    have finished : ∀ d₂, (∀ n, d₂.at? (.live n) = d₁.at? (.live n)) →
        (∀ a, d₂.at? (.aside a) = d₁.at? (.aside a)) → d₂.marks .journal = false →
        d₂.marks .request = false → Over cfg d₀ d₂ := fun d₂ hlive haside =>
      h.over hkeys (fun n => (hlive n).trans (hat _)) fun a => (haside a).trans (hat _)
    have hover := finished ((((((d₁.mark .settle).unmark .request).unmark .failed).unmark .newMachine)).unmark
      .journal) (fun _ => rfl) (fun _ => rfl) rfl rfl
    exact ⟨going hat hj, going hat hj, going hat hj, going hat hj, .inr hover, .inr hover.removeStaging,
      hover.removeStaging⟩
  rw [closeFinished, markAside, wp_bind, wp_bind, wp_read]
  split_ifs
  · exact ⟨going (fun _ => rfl) h.journal, rest _ (fun _ => rfl) h.journal⟩
  · exact rest d (fun _ => rfl) h.journal

theorem finishRestore_wp (h : Going cfg d₀ d) :
    (finishRestore (planRestoreMoves cfg d₀)).wp (Standing cfg d₀) (fun _ => Over cfg d₀)
      (fun _ _ => ¬ Fresh d₀) d := by
  rw [finishRestore, wp_bind, wp_read, h.performable, Bool.not_true, if_neg Bool.false_ne_true,
    planRestoreMoves_eq, zipIdx_append, wp_bind]
  refine wp_forM_append ?_
  refine wp_mono (keepMoves_wp h 0) (fun _ => .inl) ?_ fun _ _ => False.elim
  rintro _ d₁ ⟨h₁, haside⟩
  refine wp_mono (installMoves_wp hkeys h₁ haside _) (fun _ => .inl) ?_ fun _ _ h => h
  intro _ d₂ h₂
  exact closeFinished_wp hkeys h₂

theorem performPendingRestore_wp (h : Standing cfg d₀ d) :
    (performPendingRestore cfg (planRestoreMoves cfg d₀)).wp (Standing cfg d₀) (fun _ => Over cfg d₀)
      (fun _ _ => True) d := by
  rw [performPendingRestore, wp_bind, wp_read, id]
  rcases h with h | h
  · rw [if_pos h.journal]
    split
    · trivial
    · exact wp_mono (finishRestore_wp hkeys h) (fun _ h => h) (fun _ _ h => h) fun _ _ _ => trivial
  · rw [if_neg (by rw [h.journal]; exact Bool.false_ne_true),
      if_neg (by rw [h.request]; exact Bool.false_ne_true)]
    exact h

theorem standing_of_started (hjournal : d₀.marks .journal)
    (h : Relation.ReflTransGen (Started cfg (planRestoreMoves cfg d₀)) d₀ d) : Standing cfg d₀ d := by
  induction h with
  | refl => exact .inl ⟨hjournal, fun _ _ _ => .start, fun _ _ => rfl⟩
  | tail _ hstart ih =>
    rcases hstart with ⟨hj, hv⟩ | hv
    · rcases ih with ih | ih
      · exact wp_visits (finishRestore_wp hkeys ih) hv
      · rw [ih.journal] at hj
        cases hj
    · exact wp_visits (performPendingRestore_wp hkeys ih) hv

end

/-- However often a restore is interrupted and started again, every file that was live
is at its live place or aside. With a new directory for what is set aside, a start that
is not interrupted completes the restore. -/
theorem restore_completed_of_fresh (hjournal : d₀.marks .journal) (hkeys : KeysAgree d₀)
    (hd : Relation.ReflTransGen (Started cfg (planRestoreMoves cfg d₀)) d₀ d) :
    Kept cfg d₀ d ∧ (Fresh d₀ →
      (∀ d', Prog.Ends (performPendingRestore cfg (planRestoreMoves cfg d₀)) d (.ok ()) d' →
        Restored cfg d₀ d' ∧ d'.marks .journal = false ∧ d'.marks .request = false) ∧
      (d.marks .journal → ∀ r d', Prog.Ends (finishRestore (planRestoreMoves cfg d₀)) d r d' →
        r = .ok () ∧ Restored cfg d₀ d' ∧ d'.marks .journal = false ∧ d'.marks .request = false)) := by
  have hstanding := standing_of_started hkeys hjournal hd
  refine ⟨hstanding.kept, fun hfresh => ⟨?_, ?_⟩⟩
  · intro d' hends
    have hover := (wp_ends (performPendingRestore_wp hkeys hstanding) hends).1 () rfl
    exact ⟨hover.restored hfresh, hover.journal, hover.request⟩
  · intro hj r d' hends
    rcases hstanding with hgoing | hover
    · have hwp := wp_ends (finishRestore_wp hkeys hgoing) hends
      cases r with
      | error e => exact absurd hfresh (hwp.2 e rfl)
      | ok u =>
        have hover := hwp.1 () rfl
        exact ⟨rfl, hover.restored hfresh, hover.journal, hover.request⟩
    · rw [hover.journal] at hj
      cases hj

end

/-! ### Two restores -/

def plainSettings : Settings where
  db := charsOf "aii.db"
  ledger := charsOf "ledger.jsonl"
  base := by decide
  distinct := by decide
  plain := by decide

def twoRecords : Disk where
  files := Disk.listed [(.live snapshotLedger, ⟨[1], .before⟩), (.staged snapshotLedger, ⟨[2], .staged⟩)]
  marks m := m = .journal

/-- The same record is live and staged, and the directory for what is set aside holds a
record of an earlier restore. -/
def asideTaken : Disk where
  files := Disk.listed [(.live snapshotLedger, ⟨[1], .before⟩), (.staged snapshotLedger, ⟨[1], .staged⟩),
    (.aside snapshotLedger, ⟨[0], .before⟩)]
  marks m := m = .journal

/-- The record is restored in a new directory. -/
theorem twoRecords_restored :
    ∃ d', Prog.Ends (finishRestore (planRestoreMoves plainSettings twoRecords)) twoRecords (.ok ()) d' ∧
      Restored plainSettings twoRecords d' := by
  have hfresh : Fresh twoRecords := by
    intro a
    by_contra hne
    obtain ⟨f, hf⟩ := ne_none_iff_exists'.mp hne
    simpa using Disk.mem_of_lookup_listed hf
  have hkeys : KeysAgree twoRecords := by
    intro n f g hkey hf
    have hn : n = snapshotLedger := by
      have := Disk.mem_of_lookup_listed hf
      simp_all
    rw [hn] at hkey
    exact absurd hkey (by decide)
  obtain ⟨r, d', hends⟩ := exists_ends (finishRestore (planRestoreMoves plainSettings twoRecords)) twoRecords
  obtain ⟨rfl, hrestored, -⟩ := ((restore_completed_of_fresh rfl hkeys .refl).2 hfresh).2 rfl r d' hends
  exact ⟨d', hends, hrestored⟩

/-- With a file in its place aside, the live record is not set aside, and the restore
completes with the record of an earlier one there. -/
theorem asideTaken_not_set_aside : KeysAgree asideTaken ∧ asideTaken.marks .journal ∧
      snapshotLedger ∈ preserved plainSettings asideTaken ∧
      asideTaken.at? (.live snapshotLedger) = some ⟨[1], .before⟩ ∧
      ∃ d', Prog.Ends (finishRestore (planRestoreMoves plainSettings asideTaken)) asideTaken (.ok ()) d' ∧
        d'.at? (.aside (setName plainSettings snapshotLedger)) = some ⟨[0], .before⟩ ∧
        ¬ Restored plainSettings asideTaken d' := by
  have hkeys : KeysAgree asideTaken := by
    intro n f g hkey hf
    have hn : n = snapshotLedger := by
      have := Disk.mem_of_lookup_listed hf
      simp_all
    rw [hn] at hkey
    exact absurd hkey (by decide)
  have hpreserved : snapshotLedger ∈ preserved plainSettings asideTaken := by decide +kernel
  have hlive : asideTaken.at? (.live snapshotLedger) = some ⟨[1], .before⟩ := by decide +kernel
  refine ⟨hkeys, rfl, hpreserved, hlive, ?_⟩
  have hrun : ((finishRestore (planRestoreMoves plainSettings asideTaken)).exec [] asideTaken).2.any
      (fun x => x.1.isOk && x.2.at? (.aside snapshotLedger) == some ⟨[0], .before⟩) := by
    decide +kernel
  obtain ⟨r, d', hends, hb⟩ := exists_ends_of_exec hrun
  rw [Bool.and_eq_true, beq_iff_eq] at hb
  cases r with
  | error e => cases hb.1
  | ok u =>
    refine ⟨d', hends, hb.2, fun hrestored => ?_⟩
    have hset := (hrestored.aside snapshotLedger ⟨[1], .before⟩).mpr ⟨_, .inl hpreserved, rfl, hlive⟩
    rw [hb.2] at hset
    cases hset

end AiiOs.Continuity
