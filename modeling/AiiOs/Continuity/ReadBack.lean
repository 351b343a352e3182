import AiiOs.Continuity.Planned

/-! The journal a restore writes, as the next start reads it. The plan installs every
staged file below the directory of the witness keys, and the reader takes only those that
are directly in it and end in `.json`; the proof of a set opens no others either. -/

namespace AiiOs.Continuity
open Lib List

/-! ### What the proof of a set sees -/

def Disk.stagedSet (d : Disk) (n : Name) : Option Bytes := (d.at? (.staged n)).map File.content

def readByProof (n : Name) : Bool :=
  n = snapshotDB || isDatabaseSidecar n || n = snapshotLedger || n = tailFileName ||
    isSegmentName n || isKeyName n

/-- A snapshot's checksums and receipt are checked over the whole set; the record and the
database are proved from the files they are read from, and a set without its database is
refused. -/
def stageAndProve (snapshot : Bool) (checkSums prove : (Name → Option Bytes) → Bool)
    (set : Name → Option Bytes) :
    Bool :=
  (!snapshot || checkSums set) && (set snapshotDB).isSome && prove fun n =>
    if readByProof n then set n else none

section
variable {cfg : Names} {d : Disk} {n m : Name}

/-! ### Names the reader takes -/

theorem readRestoreJournal_eq_ok {moves : List RestoreMove} :
    readRestoreJournal cfg moves = .ok () ↔ moves ≠ [] ∧ ∀ mv ∈ moves, moveInside cfg mv := by
  rw [readRestoreJournal]
  by_cases hnil : moves = []
  · simp [hnil]
  · rw [if_neg hnil]
    cases hfind : moves.findIdx? fun mv => !moveInside cfg mv with
    | none =>
      rw [findIdx?_eq_none_iff] at hfind
      refine iff_of_true rfl ⟨hnil, fun mv hmv => ?_⟩
      simpa using hfind mv hmv
    | some i =>
      refine iff_of_false nofun fun h => ?_
      have hnone : moves.findIdx? (!moveInside cfg ·) = none :=
        findIdx?_eq_none_iff.mpr fun mv hmv => by simp [h.2 mv hmv]
      rw [hnone] at hfind
      cases hfind

theorem mine_sidecar {side : Name} (hside : side ∈ databaseSidecars) : mine cfg (cfg.db ++ side) := by
  have hdash : ['-'] <+: side := (by decide : ∀ side ∈ databaseSidecars, ['-'] <+: side) side hside
  have hpre : (cfg.db ++ ['-']).isPrefixOf (cfg.db ++ side) :=
    isPrefixOf_iff_prefix.mpr ((prefix_append_right_inj _).mpr hdash)
  have hdb : isDatabaseSidecar (snapshotDB ++ side) := isDatabaseSidecar_iff.mpr ⟨side, hside, rfl⟩
  simp [mine, hpre, hdb]

theorem mine_key (h : witnessKeysDir <+: m) : mine cfg m ↔ charsOf ".json" <:+ m ∧ m.count '/' = 1 := by
  have hslash := slash_mem_of_key h
  have hdb : m ≠ cfg.db := fun h => cfg.base.1 (h ▸ hslash)
  have hledger : m ≠ cfg.ledger := fun h => cfg.base.2 (h ▸ hslash)
  have htail : m ≠ tailFileName := fun h => absurd (h ▸ hslash) (by decide)
  have hside : ¬ (cfg.db ++ ['-'] <+: m ∧ isDatabaseSidecar (snapshotDB ++ m.drop cfg.db.length)) := by
    rintro ⟨⟨r, rfl⟩, hdrop⟩
    obtain ⟨side, hside, hr⟩ := isDatabaseSidecar_iff.mp hdrop
    rw [append_assoc, drop_left] at hr
    rw [append_assoc, append_cancel_left hr] at hslash
    rcases mem_append.mp hslash with hin | hin
    · exact cfg.base.1 hin
    · exact (by decide : ∀ side ∈ databaseSidecars, '/' ∉ side) side hside hin
  simp only [mine, hdb, hledger, htail, not_segment_of_key h, Bool.or_false,
    Bool.or_eq_true, Bool.and_eq_true, hside, false_or, isPrefixOf_iff_prefix, isSuffixOf_iff_suffix, h,
    true_and, decide_eq_true_eq]

/-- The name of a witness key: directly in its directory, and ending in `.json`. -/
def FitsKeys (m : Name) : Prop := witnessKeysDir <+: m → charsOf ".json" <:+ m ∧ m.count '/' = 1

theorem mine_installName (h : installName cfg m = some n) : mine cfg n ↔ FitsKeys m := by
  have hother : ¬ witnessKeysDir <+: m → mine cfg n → (mine cfg n ↔ FitsKeys m) :=
    fun hm hn => iff_of_true hn fun h => absurd h hm
  rw [installName] at h
  split_ifs at h with h1 h2 h3 h4 h5 h6
  · cases h
    exact hother (by rw [h1]; decide) (by simp [mine])
  · cases h
    exact hother (by rw [h2]; decide) (by simp [mine])
  · cases h
    exact hother (by rw [h3]; decide) (by simp [mine])
  · cases h
    refine hother (fun hkey => ?_) (by simp [mine, h4])
    rw [not_segment_of_key hkey] at h4
    cases h4
  · cases h
    obtain ⟨side, hside, rfl⟩ := isDatabaseSidecar_iff.mp h5
    have hkey : ∀ side ∈ databaseSidecars, ¬ witnessKeysDir <+: snapshotDB ++ side := by decide
    exact hother (hkey side hside) (mine_sidecar hside)
  · cases h
    have hkey := isPrefixOf_iff_prefix.mp h6
    exact (mine_key hkey).trans ⟨fun h _ => h, fun h => h hkey⟩

theorem mine_preserved (h : n ∈ preserved cfg d) : mine cfg n := by
  simp only [preserved, mem_filter, mem_append, mem_cons, List.mem_map, not_mem_nil, or_false] at h
  rcases h.1 with ((rfl | ⟨side, hside, rfl⟩) | rfl | rfl) | ⟨-, hseg⟩
  · simp [mine]
  · exact mine_sidecar hside
  · simp [mine]
  · simp [mine]
  · simp [mine, hseg]

theorem mine_copied (h : n ∈ copied d) : mine cfg n := by
  rw [copied, mem_filter, isKeyName] at h
  simp only [Bool.and_eq_true, decide_eq_true_eq, isPrefixOf_iff_prefix, isSuffixOf_iff_suffix] at h
  obtain ⟨-, hkey, ⟨hslash, -⟩, hjson⟩ := h
  refine (mine_key hkey).mpr ⟨hjson.trans (drop_suffix _ _), ?_⟩
  obtain ⟨r, rfl⟩ := hkey
  rw [drop_left] at hslash
  rw [count_append, count_eq_zero.mpr hslash]
  rfl

/-! ### The plan read back -/

theorem moveInside_keepMove {k : MoveKind} (hk : k ≠ .install) (hn : mine cfg n) :
    moveInside cfg (keepMove cfg k n) := by
  cases k with
  | install => exact absurd rfl hk
  | _ => simp [moveInside, keepMove, hn]

/-- The journal of a restore from a set that was proved is read back exactly when every
staged file below the directory of the keys has the name of a key. -/
theorem planned_journal_reads_back_iff {cfg : Names} {d : Disk} {snapshot : Bool}
    {checkSums prove : (Name → Option Bytes) → Bool}
    (hproved : stageAndProve snapshot checkSums prove d.stagedSet) :
    readRestoreJournal cfg (planRestoreMoves cfg d) = .ok () ↔ ∀ m, d.has (.staged m) → FitsKeys m := by
  have hdb : snapshotDB ∈ d.stagedNames := by
    rw [Disk.mem_stagedNames]
    simp only [stageAndProve, Bool.and_eq_true, Disk.stagedSet, Option.isSome_map] at hproved
    exact hproved.1.2
  have hinstall : ∀ mv, mv ∈ installMoves cfg d ↔
      ∃ m n, d.has (.staged m) ∧ m ≠ sumsName ∧ installName cfg m = some n ∧
      mv = ⟨.staged m, .live n, .install⟩ := by
    intro mv
    simp only [installMoves, mem_filterMap, mem_filter, Disk.mem_stagedNames, Option.map_eq_some_iff,
      decide_eq_true_eq]
    constructor
    · rintro ⟨m, ⟨hm, hne⟩, n, hn, rfl⟩
      exact ⟨m, n, hm, hne, hn, rfl⟩
    · rintro ⟨m, n, hm, hne, hn, rfl⟩
      exact ⟨m, ⟨hm, hne⟩, n, hn, rfl⟩
  rw [readRestoreJournal_eq_ok]
  constructor
  · rintro ⟨-, hall⟩ m hm hkey
    have hname : installName cfg m = some m := installName_key hkey
    have hne : m ≠ sumsName := fun h => absurd (h ▸ hkey) (by decide)
    have hmove := hall ⟨.staged m, .live m, .install⟩
      (mem_append_right _ ((hinstall _).mpr ⟨m, m, hm, hne, hname, rfl⟩))
    exact (mine_installName hname).mp hmove hkey
  -- the database is always installed, so that the plan is not empty
  · intro hfits
    refine ⟨fun hnil => ?_, fun mv hmv => ?_⟩
    · have hmem : (⟨.staged snapshotDB, .live cfg.db, .install⟩ : RestoreMove) ∈ planRestoreMoves cfg d :=
        mem_append_right _ ((hinstall _).mpr
          ⟨snapshotDB, cfg.db, Disk.mem_stagedNames.mp hdb, by decide, if_pos rfl, rfl⟩)
      rw [hnil] at hmem
      cases hmem
    · rw [planRestoreMoves, mem_append, mem_append, hinstall] at hmv
      rcases hmv with (hmv | hmv) | ⟨m, n, hm, -, hn, rfl⟩
      · obtain ⟨n, hn, rfl⟩ := List.mem_map.mp hmv
        exact moveInside_keepMove (by decide) (mine_preserved hn)
      · obtain ⟨n, hn, rfl⟩ := List.mem_map.mp hmv
        exact moveInside_keepMove (by decide) (mine_copied hn)
      · exact (mine_installName hn).mpr (hfits m hm)

end

def plainNames : Names := ⟨snapshotDB, snapshotLedger, by decide⟩

def stagedOnly (names : List Name) : Disk where
  files := Disk.listed (names.map fun n => (.staged n, ⟨[1], .staged⟩))
  marks m := m = .journal

theorem planned_journal_reads_back_key : readRestoreJournal plainNames
      (planRestoreMoves plainNames (stagedOnly [charsOf "witness-keys/k.json", snapshotDB, snapshotLedger])) =
        .ok () := by
  refine (@planned_journal_reads_back_iff _ _ false (fun _ => true) (fun _ => true) (by decide)).mpr
    fun m hm => ?_
  exact (by decide : ∀ m ∈
    (stagedOnly [charsOf "witness-keys/k.json", snapshotDB, snapshotLedger]).stagedNames,
    witnessKeysDir <+: m → charsOf ".json" <:+ m ∧ m.count '/' = 1) m (Disk.mem_stagedNames.mpr hm)

/-- With a note among the keys a set is proved exactly as without it, and the journal of
its restore is not read back. -/
theorem planned_journal_refused : readRestoreJournal plainNames
        (planRestoreMoves plainNames
          (stagedOnly [charsOf "witness-keys/notes.txt", snapshotDB, snapshotLedger])) =
        .error (.outside 0) ∧
      ∀ checkSums prove, stageAndProve false checkSums prove
          (stagedOnly [charsOf "witness-keys/notes.txt", snapshotDB, snapshotLedger]).stagedSet =
        stageAndProve false checkSums prove (stagedOnly [snapshotDB, snapshotLedger]).stagedSet := by
  refine ⟨by decide, fun checkSums prove => ?_⟩
  have hview : (fun n => if readByProof n then
      (stagedOnly [charsOf "witness-keys/notes.txt", snapshotDB, snapshotLedger]).stagedSet n else none) =
        fun n => if readByProof n then (stagedOnly [snapshotDB, snapshotLedger]).stagedSet n else none := by
    funext n
    by_cases hn : n = charsOf "witness-keys/notes.txt"
    · rw [hn]
      rfl
    · have hne : Place.staged n ≠ .staged (charsOf "witness-keys/notes.txt") :=
        fun h => hn (Place.staged.inj h)
      exact congrArg (fun o => if readByProof n then Option.map File.content o else none)
        (AList.lookup_insert_ne hne)
  rw [stageAndProve, hview]
  rfl

end AiiOs.Continuity
