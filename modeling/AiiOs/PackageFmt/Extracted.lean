import AiiOs.PackageFmt.Rooted
import AiiOs.PackageFmt.RuntimeTree

/-! Two archives under one inventory. The files of the extracted trees are those of the
inventory; the directories are the ones the archive has members for. -/

namespace AiiOs.PackageFmt
open Lib List

variable {sha256 : Bytes → Bytes} {limits : TreeLimits} {want : Bytes}

/-! ### One member -/

def relOf (root : Bytes) (m : TarMember) : Bytes := trimPath (root ++ [slash]) m.path

def Payload (limits : TarLimits) (m : TarMember) (payload : Bytes) (w w' : TarWalker) : Prop :=
  (if m.isDir then .ok ([], w) else w.readPayload limits m) = .ok (payload, w')

structure Agrees (sha256 : Bytes → Bytes) (limits : TreeLimits) (e : InventoryEntry) (m : TarMember)
    (payload : Bytes) :
    Prop where
  size : (m.size : Int) = e.size
  ceiling : (m.size : Int) ≤ limits.maxFileBytes
  mode : decide (m.mode = tarModeExecutable) = decide (e.mode = bytesOf "exec")
  digest : digestOf sha256 payload = e.sha256

def nodeOf (e : InventoryEntry) (payload : Bytes) : Node := .file payload (e.mode = bytesOf "exec")

inductive Takes (sha256 : Bytes → Bytes) (limits : TreeLimits) (want : Bytes) :
    Extraction → TarMember → Bytes → Extraction → Prop
  | root {x m} (payload : Bytes) (hroot : x.rep.root = []) :
    Takes sha256 limits want x m payload { x with rep.root := m.path }
  | inventory {x m raw inv} (hroot : x.rep.root ≠ []) (hfile : m.isDir = false) (hinv : x.inv = none)
    (hrel : relOf x.rep.root m = inventoryFile) (hdepth : (1 : Int) ≤ limits.maxDepth)
    (hsize : (m.size : Int) ≤ limits.maxInventoryBytes) (hdigest : digestOf sha256 raw = want)
    (hparse : parseInventory raw limits = .ok inv) :
    Takes sha256 limits want x m raw
      { x with inv := some inv, rep.inventorySHA := digestOf sha256 raw, rep.inventoryRaw := raw }
  | dir {x m inv} (hroot : x.rep.root ≠ []) (hdir : m.isDir) (hinv : x.inv = some inv)
    (hdepth : ((relOf x.rep.root m).count slash : Int) + 1 ≤ limits.maxDepth)
    (hfree : x.tree.free (relOf x.rep.root m)) :
    Takes sha256 limits want x m [] { x with tree := x.tree.put (relOf x.rep.root m) .dir }
  | file {x m inv e payload} (hroot : x.rep.root ≠ []) (hfile : m.isDir = false) (hinv : x.inv = some inv)
    (hdepth : ((relOf x.rep.root m).count slash : Int) + 1 ≤ limits.maxDepth)
    (hentry : inv.files.find? (fun e => e.path = relOf x.rep.root m) = some e)
    (hseen : relOf x.rep.root m ∉ x.seen) (hagrees : Agrees sha256 limits e m payload)
    (hfree : x.tree.free (relOf x.rep.root m))
    (hinstalled : int64 (x.rep.installedBytes + m.size) ≤ limits.maxInstalledBytes) :
    Takes sha256 limits want x m payload { x with
        seen := x.seen ++ [relOf x.rep.root m]
        tree := x.tree.put (relOf x.rep.root m) (nodeOf e payload)
        rep.files := x.rep.files + 1
        rep.installedBytes := int64 (x.rep.installedBytes + m.size) }

variable {w w' : TarWalker} {m : TarMember} {payload raw rel top : Bytes}
  {ps : List (TarMember × Bytes)}

variable {x x' : Extraction} {inv : Inventory} {t : Tree} {n : Node}

theorem extractInventory_iff :
    extractInventory sha256 limits want rel m x w = .ok (x', w') ↔ rel = inventoryFile ∧
      (m.size : Int) ≤ limits.maxInventoryBytes ∧ ∃ raw, w.readPayload limits.tarLimits m = .ok (raw, w') ∧
        digestOf sha256 raw = want ∧ ∃ inv, parseInventory raw limits = .ok inv ∧
          { x with
            inv := some inv, rep.inventorySHA := digestOf sha256 raw, rep.inventoryRaw := raw } = x' := by
  simp only [extractInventory, ite_error_eq_ok, bind_eq_ok, mapError_eq_ok, not_not, Int.not_lt, Prod.exists]
  refine and_congr_right' (and_congr_right' (exists_congr fun raw => ?_))
  cases hparse : parseInventory raw limits with
  | error e => simp
  | ok inv => simp

theorem extractFile_iff : extractFile sha256 limits inv rel m x w = .ok (x', w') ↔ ∃ e payload,
      inv.files.find? (fun e => e.path = rel) = some e ∧ rel ∉ x.seen ∧ Agrees sha256 limits e m payload ∧
        x.tree.free rel ∧ w.readPayload limits.tarLimits m = .ok (payload, w') ∧
        int64 (x.rep.installedBytes + m.size) ≤ limits.maxInstalledBytes ∧
        { x with
          seen := x.seen ++ [rel]
          tree := x.tree.put rel (nodeOf e payload)
          rep.files := x.rep.files + 1
          rep.installedBytes := int64 (x.rep.installedBytes + m.size) } = x' := by
  rw [extractFile]
  cases inv.files.find? fun e => e.path = rel with
  | none => simp
  | some e =>
    simp only [ite_error_eq_ok, bind_eq_ok, mapError_eq_ok, not_not, Int.not_lt, Bool.not_eq_true',
      Bool.not_eq_false, Prod.exists, Except.ok.injEq, Prod.mk.injEq]
    constructor
    · rintro ⟨hseen, hsize, hceiling, hmode, hfree, payload, _, hread, hdigest, hinstalled, hx, rfl⟩
      exact ⟨e, payload, rfl, hseen, ⟨hsize, hceiling, hmode, hdigest⟩, hfree, hread, hinstalled, hx⟩
    · rintro ⟨_, payload, ⟨⟩, hseen, ⟨hsize, hceiling, hmode, hdigest⟩, hfree, hread, hinstalled, hx⟩
      exact ⟨hseen, hsize, hceiling, hmode, hfree, payload, _, hread, hdigest, hinstalled, hx, rfl⟩

theorem extractMember_eq_ok (hfirst : x.rep.root = [] → m.isDir)
    (h : extractMember sha256 limits want m x w = .ok (x', w')) :
    ∃ payload, Takes sha256 limits want x m payload x' ∧ Payload limits.tarLimits m payload w w' := by
  rw [extractMember] at h
  split at h
  · rename_i hroot
    cases h
    exact ⟨[], .root [] hroot, by rw [Payload, hfirst hroot]; rfl⟩
  rename_i hroot
  obtain ⟨hdepth, h⟩ := ite_error_eq_ok.mp h
  have hdepth : ((relOf x.rep.root m).count slash : Int) + 1 ≤ limits.maxDepth := Int.not_lt.mp hdepth
  obtain ⟨rep, inv, seen, tree⟩ := x
  have hpayload {payload : Bytes} (hfile : ¬m.isDir)
    (hread : w.readPayload limits.tarLimits m = .ok (payload, w')) :
      Payload limits.tarLimits m payload w w' := by
    rw [Payload, if_neg hfile]
    exact hread
  cases inv with
  | none =>
    obtain ⟨hfile, h⟩ := ite_error_eq_ok.mp h
    obtain ⟨hrel, hsize, raw, hread, hdigest, inv, hparse, rfl⟩ := extractInventory_iff.mp h
    rw [relOf, hrel] at hdepth
    exact ⟨raw, .inventory hroot (Bool.not_eq_true _ ▸ hfile) rfl hrel hdepth hsize hdigest hparse,
      hpayload hfile hread⟩
  | some inv =>
    split_ifs at h with hdir hfree
    · cases h
      exact ⟨[], .dir hroot hdir rfl hdepth hfree, by rw [Payload, hdir]; rfl⟩
    · obtain ⟨e, payload, hentry, hseen, hagrees, hfree, hread, hinstalled, rfl⟩ := extractFile_iff.mp h
      exact ⟨payload,
        .file hroot (Bool.not_eq_true _ ▸ hdir) rfl hdepth hentry hseen hagrees hfree hinstalled,
        hpayload hdir hread⟩

/-! ### The loop -/

inductive TakesAll (sha256 : Bytes → Bytes) (limits : TreeLimits) (want : Bytes) :
    Extraction → List (TarMember × Bytes) → Extraction → Prop
  | nil (x : Extraction) : TakesAll sha256 limits want x [] x
  | cons {x x' x'' m payload ps} (h : Takes sha256 limits want x m payload x')
    (hs : TakesAll sha256 limits want x' ps x'') : TakesAll sha256 limits want x ((m, payload) :: ps) x''

theorem Takes.root_ne_nil (h : Takes sha256 limits want x m payload x') (hm : m.path ≠ []) :
    x'.rep.root ≠ [] := by
  cases h with
  | root => exact hm
  | inventory hroot => exact hroot
  | dir hroot => exact hroot
  | file hroot => exact hroot

theorem extractLoop_eq_ok {fuel : Nat} {ms : List TarMember}
    (hw : Tracks limits.tarLimits ms w) (hroot : x.rep.root = [] → ms = [])
    (h : extractLoop sha256 limits want fuel x w = .ok (x', w')) (hend : w'.input = []) :
    ∃ ps, TakesAll sha256 limits want x ps x' ∧ w.walkFuel limits.tarLimits fuel = .ok (ps, w') ∧
      Rooted limits.tarLimits (ms ++ ps.map Prod.fst) := by
  induction fuel generalizing x w ms with
  | zero => cases h
  | succ fuel ih =>
    obtain ⟨⟨o, v⟩, hnext, h⟩ := bind_eq_ok.mp h
    have hnext := mapError_eq_ok.mp hnext
    cases o with
    | none =>
      cases h
      refine ⟨[], .nil _, ?_, ?_⟩
      · rw [TarWalker.walkFuel, hnext]
        exact if_pos hend
      · rw [map_nil, append_nil]
        exact hw.toRooted
    | some m =>
      obtain ⟨⟨y, u⟩, hmember, h⟩ := bind_eq_ok.mp h
      have hv := hw.next hnext
      have hfirst : x.rep.root = [] → m.isDir := by
        intro hnil
        rw [hroot hnil] at hv
        exact (hv.root m [] rfl).1
      obtain ⟨payload, htakes, hread⟩ := extractMember_eq_ok hfirst hmember
      have hne : m.path ≠ [] := path_ne_nil (hv.components m (by simp))
      have hu : Tracks limits.tarLimits (ms ++ [m]) u := by
        rw [Payload] at hread
        split_ifs at hread
        · cases hread
          exact hv
        · exact hv.readPayload hread
      obtain ⟨ps, hall, hwalk, hrooted⟩ := ih hu (fun hnil => absurd hnil (htakes.root_ne_nil hne)) h
      refine ⟨(m, payload) :: ps, .cons htakes hall, ?_, ?_⟩
      · rw [TarWalker.walkFuel_eq]
        exact bind_eq_ok.mpr ⟨_, hnext, bind_eq_ok.mpr ⟨_, hread, bind_eq_ok.mpr ⟨_, hwalk, rfl⟩⟩⟩
      · rw [map_cons, append_cons]
        exact hrooted

/-! ### The tree behind the inventory -/

def Made (sha256 : Bytes → Bytes) (inv : Inventory) (m : TarMember × Bytes) (rel : Bytes) (n : Node) : Prop :=
  if m.1.isDir then n = .dir
  else ∃ e, inv.files.find? (fun e => e.path = rel) = some e ∧ digestOf sha256 m.2 = e.sha256 ∧
    n = nodeOf e m.2

/-- The tree and the loop's variables are those of the members `ps` behind the inventory. -/
structure Mirrors (sha256 : Bytes → Bytes) (raw : Bytes) (inv : Inventory) (top : Bytes)
    (ps : List (TarMember × Bytes)) (x : Extraction) : Prop where
  top_ne : top ≠ []
  raw_eq : x.rep.inventoryRaw = raw
  root : x.rep.root = top
  parsed : x.inv = some inv
  seen : ∀ p, p ∈ x.seen ↔ ∃ m ∈ ps, m.1.isDir = false ∧ relOf top m.1 = p
  made : ∀ m ∈ ps, ∃ n, Made sha256 inv m (relOf top m.1) n
  tree : ∀ p n, x.tree p = some n ↔ ∃ m ∈ ps, relOf top m.1 = p ∧ Made sha256 inv m p n
  closed : ∀ p n parent, x.tree p = some n → TarWalker.parentPath p = some parent → x.tree parent = some .dir

theorem Tree.put_eq {p : Bytes} : t.put rel n p = if p = rel then some n else t p := by
  rw [Tree.put, Function.update_apply]

theorem Tree.none_of_free (h : t.free rel) : t rel = none := by
  rw [Tree.free, Bool.and_eq_true, Option.isNone_iff_eq_none] at h
  exact h.1

theorem Tree.closed_put (hfree : t.free rel)
    (h : ∀ p n parent, t p = some n → TarWalker.parentPath p = some parent → t parent = some .dir) :
    ∀ p n' parent, t.put rel n p = some n' → TarWalker.parentPath p = some parent →
      t.put rel n parent = some .dir := by
  intro p n' parent hp hparent
  have hold : t parent = some .dir := by
    rw [Tree.put_eq] at hp
    split_ifs at hp with hrel
    · rw [Tree.free, ← hrel, hparent, Bool.and_eq_true, decide_eq_true_eq] at hfree
      exact hfree.2
    · exact h p n' parent hp hparent
  rw [Tree.put_eq, if_neg, hold]
  rintro rfl
  rw [Tree.none_of_free hfree] at hold
  cases hold

section
variable (h : Mirrors sha256 raw inv top ps x)
include h

theorem Mirrors.tree_put {m : TarMember × Bytes}
    (hnone : x.tree (relOf top m.1) = none) (hm : ∀ n', Made sha256 inv m (relOf top m.1) n' ↔ n' = n) :
    ∀ p n', x.tree.put (relOf top m.1) n p = some n' ↔ ∃ a ∈ ps ++ [m], relOf top a.1 = p ∧
      Made sha256 inv a p n' := by
  intro p n'
  have hfresh : ∀ a ∈ ps, relOf top a.1 ≠ relOf top m.1 := by
    intro a ha heq
    obtain ⟨na, hna⟩ := h.made a ha
    rw [heq] at hna
    rw [(h.tree _ na).mpr ⟨a, ha, heq, hna⟩] at hnone
    cases hnone
  rw [Tree.put_eq]
  split_ifs with hp
  · subst hp
    rw [Option.some_inj]
    constructor
    · rintro rfl
      exact ⟨m, by simp, rfl, (hm n).mpr rfl⟩
    · rintro ⟨a, ha, hrel, hmade⟩
      rcases mem_append.mp ha with ha | ha
      · exact absurd hrel (hfresh a ha)
      · rw [mem_singleton.mp ha] at hmade
        exact ((hm n').mp hmade).symm
  · rw [h.tree]
    constructor
    · rintro ⟨a, ha, hrel, hmade⟩
      exact ⟨a, mem_append_left _ ha, hrel, hmade⟩
    · rintro ⟨a, ha, hrel, hmade⟩
      rcases mem_append.mp ha with ha | ha
      · exact ⟨a, ha, hrel, hmade⟩
      · rw [mem_singleton.mp ha] at hrel
        exact absurd hrel.symm hp

theorem Mirrors.takes (ht : Takes sha256 limits want x m payload x') :
    Mirrors sha256 raw inv top (ps ++ [(m, payload)]) x' := by
  have hr := h.root
  have hi := h.parsed
  have hmade {n : Node} (hn : Made sha256 inv (m, payload) (relOf top m) n) :
      ∀ a ∈ ps ++ [(m, payload)], ∃ n, Made sha256 inv a (relOf top a.1) n :=
    forall_mem_append.mpr ⟨h.made, forall_mem_singleton.mpr ⟨n, hn⟩⟩
  cases ht with
  | root _ hroot => exact absurd (hr ▸ hroot) h.top_ne
  | inventory _ _ hinv =>
    rw [hi] at hinv
    cases hinv
  | dir _ hdir _ _ hfree =>
    rw [hr] at hfree ⊢
    have hn : ∀ n', Made sha256 inv (m, []) (relOf top m) n' ↔ n' = .dir := by
      intro n'
      rw [Made, if_pos hdir]
    refine ⟨h.top_ne, h.raw_eq, hr, hi, fun p => ?_, hmade ((hn .dir).mpr rfl),
      h.tree_put (Tree.none_of_free hfree) hn, Tree.closed_put hfree h.closed⟩
    rw [h.seen]
    simp [hdir]
  | @file inv' e _ _ hfile hinv _ hentry _ hagrees hfree _ =>
    rw [hi] at hinv
    cases hinv
    rw [hr] at hentry hfree ⊢
    have hn : ∀ n', Made sha256 inv (m, payload) (relOf top m) n' ↔ n' = nodeOf e payload := by
      intro n'
      rw [Made, if_neg (by simp [hfile])]
      constructor
      · rintro ⟨e', he', -, rfl⟩
        rw [hentry] at he'
        cases he'
        rfl
      · rintro rfl
        exact ⟨_, hentry, hagrees.digest, rfl⟩
    refine ⟨h.top_ne, h.raw_eq, hr, hi, fun p => ?_, hmade ((hn _).mpr rfl),
      h.tree_put (Tree.none_of_free hfree) hn, Tree.closed_put hfree h.closed⟩
    rw [mem_append, h.seen, mem_singleton, eq_comm (a := p)]
    simp only [mem_append, mem_singleton, or_and_right, exists_or, exists_eq_left, hfile, true_and]

theorem Mirrors.takesAll {qs : List (TarMember × Bytes)}
    (ht : TakesAll sha256 limits want x qs x') : Mirrors sha256 raw inv top (ps ++ qs) x' := by
  induction ht generalizing ps with
  | nil x =>
    rw [append_nil]
    exact h
  | cons hstep _ ih =>
    rw [append_cons]
    exact ih (h.takes hstep)

end

/-! ### Accepted archives -/

def archiveMembers (inflate : Bytes → Option Bytes) (limits : TreeLimits) (archive : Bytes) :
    List (TarMember × Bytes) :=
  match inflate archive with
  | none => []
  | some stream => ((walk limits.filled.tarLimits stream).toOption.map Prod.fst).getD []

theorem takesAll_start (h : TakesAll sha256 limits want .start ps x)
    (hne : ∀ p ∈ ps, p.1.path ≠ []) (hinv : x.inv = some inv) :
    ∃ r i qs, ps = r :: i :: qs ∧ (i.1.isDir = false ∧ relOf r.1.path i.1 = inventoryFile) ∧
      digestOf sha256 i.2 = want ∧ parseInventory i.2 limits = .ok inv ∧
      Mirrors sha256 i.2 inv r.1.path qs x := by
  cases h with
  | nil => cases hinv
  | @cons _ _ _ r rp ps h hs =>
    cases h with
    | inventory hroot => exact absurd rfl hroot
    | dir hroot => exact absurd rfl hroot
    | file hroot => exact absurd rfl hroot
    | root =>
      have htop : r.path ≠ [] := hne _ mem_cons_self
      cases hs with
      | nil => cases hinv
      | @cons _ _ _ i raw qs h hs =>
        cases h with
        | root _ hroot => exact absurd hroot htop
        | dir _ _ hnone => cases hnone
        | file _ _ hnone => cases hnone
        | inventory _ hfile _ hrel _ _ hdigest hparse =>
          have hmirrors := Mirrors.takesAll (show Mirrors _ _ _ _ [] _ from
            ⟨htop, rfl, rfl, rfl, by simp [Extraction.start], nofun,
              by simp [Extraction.start, Tree.empty], by rintro _ _ _ ⟨⟩⟩) hs
          have hsame := hmirrors.parsed
          rw [hinv] at hsame
          cases hsame
          exact ⟨(r, rp), (i, raw), qs, rfl, ⟨hfile, hrel⟩, hdigest, hparse, hmirrors⟩

theorem TreeLimits.filled_filled (l : TreeLimits) : l.filled.filled = l.filled := by
  have hpos (a d : Int) (hd : 0 < d) : (if (if a ≤ 0 then d else a) ≤ 0 then d else if a ≤ 0 then d else a) =
      if a ≤ 0 then d else a := by
    split_ifs <;> omega
  simp only [TreeLimits.filled]
  congr 1 <;> exact hpos _ _ (by decide)

theorem extractEnd_iff {r : TreeReport × Tree} :
    extractEnd x = .ok r ↔ ∃ inv, x.inv = some inv ∧ (∀ e ∈ inv.files, e.path ∈ x.seen) ∧
      inv.installedBytes = x.rep.installedBytes ∧ (x.rep, x.tree) = r := by
  rw [extractEnd]
  cases x.inv with
  | none => simp
  | some inv =>
    simp only [ite_error_eq_ok]
    simp

section
variable {inflate : Bytes → Option Bytes} {archive : Bytes} {rep : TreeReport} {tree : Tree}

/-- An accepted archive: its members form a tree, and what is extracted mirrors those
behind the inventory, all of whose files are there. -/
structure Accepted (sha256 : Bytes → Bytes) (limits : TreeLimits) (want : Bytes) (r i : TarMember × Bytes)
    (qs : List (TarMember × Bytes)) (inv : Inventory) (x : Extraction) : Prop where
  rooted : Rooted limits.filled.tarLimits (r.1 :: i.1 :: qs.map Prod.fst)
  file : i.1.isDir = false
  name : relOf r.1.path i.1 = inventoryFile
  digest : digestOf sha256 i.2 = want
  parse : parseInventory i.2 limits = .ok inv
  mirrors : Mirrors sha256 i.2 inv r.1.path qs x
  complete : ∀ e ∈ inv.files, e.path ∈ x.seen

theorem accepted_of_extractTree (h : extractTree sha256 limits want inflate archive = .ok (rep, tree)) :
    ∃ r i qs inv x, archiveMembers inflate limits archive = r :: i :: qs ∧ rep = x.rep ∧ tree = x.tree ∧
      Accepted sha256 limits want r i qs inv x := by
  obtain ⟨-, h⟩ := ite_error_eq_ok.mp h
  obtain ⟨-, h⟩ := ite_error_eq_ok.mp h
  split at h
  · cases h
  rename_i stream hstream
  obtain ⟨⟨x, w⟩, hloop, h⟩ := bind_eq_ok.mp h
  obtain ⟨hinput, h⟩ := ite_error_eq_ok.mp h
  obtain ⟨inv, hinv, hall, -, hr⟩ := extractEnd_iff.mp h
  cases hr
  obtain ⟨ps, htakes, hwalk, hrooted⟩ :=
    extractLoop_eq_ok (tracks_newTarWalker stream) (fun _ => rfl) hloop (not_not.mp hinput)
  have hne : ∀ p ∈ ps, p.1.path ≠ [] := by
    intro p hp
    exact path_ne_nil (hrooted.components p.1 (List.mem_map_of_mem hp))
  obtain ⟨r, i, qs, rfl, ⟨hfile, hrel⟩, hdigest, hparse, hmirrors⟩ := takesAll_start htakes hne hinv
  rw [parseInventory, TreeLimits.filled_filled] at hparse
  refine ⟨r, i, qs, inv, x, ?_, rfl, rfl, hrooted, hfile, hrel, hdigest, hparse, hmirrors, hall⟩
  have hwalk : walk limits.filled.tarLimits stream = .ok (r :: i :: qs, w) := hwalk
  simp [archiveMembers, hstream, hwalk, Except.toOption]

end

/-! ### Directories -/

def OnlyAncestors (limits : TreeLimits) (rep : TreeReport) (tree : Tree) : Prop :=
  ∀ inv, parseInventory rep.inventoryRaw limits = .ok inv → ∀ p, tree p = some .dir →
    ∃ e ∈ inv.files, Under e.path p

/-- Every directory member but the first has a file member below it. -/
def NoSpareDirectory (ms : List (TarMember × Bytes)) : Prop :=
  ∀ d ∈ ms.tail, d.1.isDir → ∃ f ∈ ms, f.1.isDir = false ∧ Under f.1.path d.1.path

theorem relOf_of_path (h : m.path = top ++ slash :: rel) : relOf top m = rel := by
  have hpath : m.path = (top ++ [slash]) ++ rel := by rw [h, ← append_cons]
  rw [relOf, trimPath, hpath, if_pos (by simp), drop_left]

section
variable {r i : TarMember × Bytes} {qs : List (TarMember × Bytes)} {inv : Inventory} {x : Extraction}

theorem Accepted.path (h : Accepted sha256 limits want r i qs inv x) {m : TarMember × Bytes}
    (hm : m ∈ i :: qs) :
    m.1.path = r.1.path ++ slash :: relOf r.1.path m.1 := by
  obtain ⟨rel, hrel⟩ := h.rooted.under_root m.1 (List.mem_map_of_mem (f := Prod.fst) hm)
  rw [relOf_of_path hrel]
  exact hrel

section
variable (h : Accepted sha256 limits want r i qs inv x)
include h

theorem Accepted.under_iff {a b : TarMember × Bytes} (ha : a ∈ i :: qs)
    (hb : b ∈ i :: qs) : Under a.1.path b.1.path ↔ Under (relOf r.1.path a.1) (relOf r.1.path b.1) := by
  rw [h.path ha, h.path hb]
  exact under_append_iff

theorem Accepted.member {e : InventoryEntry} (he : e ∈ inv.files) :
    ∃ m ∈ qs, m.1.isDir = false ∧ relOf r.1.path m.1 = e.path :=
  (h.mirrors.seen e.path).mp (h.complete e he)

theorem Accepted.entry {m : TarMember × Bytes} (hm : m ∈ qs)
    (hfile : m.1.isDir = false) : ∃ e ∈ inv.files, e.path = relOf r.1.path m.1 := by
  obtain ⟨n, hn⟩ := h.mirrors.made m hm
  rw [Made, if_neg (by simp [hfile])] at hn
  obtain ⟨e, he, -⟩ := hn
  exact ⟨e, mem_of_find?_eq_some he, by simpa using find?_some he⟩

theorem Accepted.dir_iff (p : Bytes) :
    x.tree p = some .dir ↔ ∃ m ∈ qs, m.1.isDir ∧ relOf r.1.path m.1 = p := by
  rw [h.mirrors.tree]
  constructor
  · rintro ⟨m, hm, hrel, hmade⟩
    rw [Made] at hmade
    split_ifs at hmade with hdir
    · exact ⟨m, hm, hdir, hrel⟩
    · obtain ⟨e, -, -, hnode⟩ := hmade
      cases hnode
  · rintro ⟨m, hm, hdir, hrel⟩
    exact ⟨m, hm, hrel, by rw [Made, if_pos hdir]⟩

theorem Accepted.onlyAncestors_iff : OnlyAncestors limits x.rep x.tree ↔ NoSpareDirectory (r :: i :: qs) := by
  rw [OnlyAncestors, h.mirrors.raw_eq]
  constructor
  · intro hall d hd hdir
    rcases mem_cons.mp hd with rfl | hmem
    · rw [h.file] at hdir
      cases hdir
    · obtain ⟨e, he, hunder⟩ := hall inv h.parse _ ((h.dir_iff _).mpr ⟨d, hmem, hdir, rfl⟩)
      obtain ⟨m, hm, hfile, hrel⟩ := h.member he
      refine ⟨m, by simp [hm], hfile, (h.under_iff (mem_cons_of_mem _ hm) hd).mpr ?_⟩
      rw [hrel]
      exact hunder
  · intro hnone inv' hparse p hp
    rw [h.parse] at hparse
    cases hparse
    obtain ⟨d, hd, hdir, rfl⟩ := (h.dir_iff p).mp hp
    have hd' : d ∈ i :: qs := mem_cons_of_mem _ hd
    obtain ⟨f, hf, hfile, hunder⟩ := hnone d hd' hdir
    rcases mem_cons.mp hf with rfl | hf
    · rw [(h.rooted.root _ _ rfl).1] at hfile
      cases hfile
    have hrel := (h.under_iff hf hd').mp hunder
    rcases mem_cons.mp hf with rfl | hf
    · -- nothing lies above the inventory but the root
      obtain ⟨rest, hrest⟩ := hrel
      rw [h.name] at hrest
      have hslash : slash ∈ inventoryFile := by
        rw [hrest]
        simp
      exact absurd hslash (by decide)
    · obtain ⟨e, he, hpath⟩ := h.entry hf hfile
      exact ⟨e, he, hpath ▸ hrel⟩

end

theorem Mirrors.dir_of_under {raw top : Bytes} (h : Mirrors sha256 raw inv top qs x) {p q : Bytes} {n : Node}
    (hq : x.tree q = some n) (hunder : Under q p) : x.tree p = some .dir := by
  obtain ⟨rest, rfl⟩ := hunder
  induction hlen : rest.length using Nat.strong_induction_on generalizing rest n with
  | _ len ih =>
    cases hp : TarWalker.parentPath (p ++ slash :: rest) with
    | none =>
      rw [TarWalker.parentPath, if_pos (by simp)] at hp
      cases hp
    | some parent =>
      have hdir := h.closed _ _ _ hq hp
      rcases under_of_parent hp with rfl | ⟨rest', hlt, rfl⟩
      · exact hdir
      · exact ih rest'.length (by omega) rest' hdir rfl

end

/-! ### Two archives -/

theorem sha256_eq_of_digestOf {a b : Bytes} (h : digestOf sha256 a = digestOf sha256 b) :
    sha256 a = sha256 b :=
  hexEncode_injective (Utf8.encode_injective (append_cancel_left h))

section
variable {r i r' i' : TarMember × Bytes} {qs qs' : List (TarMember × Bytes)} {inv : Inventory}
  {x x' : Extraction}

theorem Accepted.tree_le (h : Accepted sha256 limits want r i qs inv x)
    (h' : Accepted sha256 limits want r' i' qs' inv x')
    (hsha : ∀ p ∈ qs, ∀ q ∈ qs', sha256 p.2 = sha256 q.2 → p.2 = q.2)
    (hdirs : ∀ p, x.tree p = some .dir → ∃ e ∈ inv.files, Under e.path p) {p : Bytes} {n : Node}
    (hp : x.tree p = some n) : x'.tree p = some n := by
  have hfile {e : InventoryEntry} (he : e ∈ inv.files) : ∃ m ∈ qs', m.1.isDir = false ∧
      relOf r'.1.path m.1 = e.path ∧ ∃ n', Made sha256 inv m e.path n' ∧ x'.tree e.path = some n' := by
    obtain ⟨m, hm, hdir, hrel⟩ := h'.member he
    obtain ⟨n', hn'⟩ := h'.mirrors.made m hm
    rw [hrel] at hn'
    exact ⟨m, hm, hdir, hrel, n', hn', (h'.mirrors.tree _ _).mpr ⟨m, hm, hrel, hn'⟩⟩
  cases n with
  | dir =>
    obtain ⟨e, he, hunder⟩ := hdirs p hp
    obtain ⟨m, -, -, -, n', -, htree⟩ := hfile he
    exact h'.mirrors.dir_of_under htree hunder
  | file bytes exec =>
    obtain ⟨m, hm, -, hmade⟩ := (h.mirrors.tree p _).mp hp
    rw [Made] at hmade
    split_ifs at hmade
    obtain ⟨e, hfind, hdigest, hnode⟩ := hmade
    obtain rfl : e.path = p := by simpa using find?_some hfind
    obtain ⟨m', hm', hdir', -, n', hmade', htree'⟩ := hfile (mem_of_find?_eq_some hfind)
    rw [Made, if_neg (by simp [hdir']), hfind] at hmade'
    obtain ⟨e', he', hdigest', rfl⟩ := hmade'
    cases he'
    have hbytes : m.2 = m'.2 := hsha m hm m' hm' (sha256_eq_of_digestOf (hdigest.trans hdigest'.symm))
    rw [htree', hnode, hbytes]

end

/-- Two archives accepted under one digest give the same tree, with directories above
files only, when neither has a directory without a file. -/
theorem trees_identical_iff {inflate : Bytes → Option Bytes} {archive archive' : Bytes}
    {rep rep' : TreeReport} {tree tree' : Tree}
    (h : extractTree sha256 limits want inflate archive = .ok (rep, tree))
    (h' : extractTree sha256 limits want inflate archive' = .ok (rep', tree'))
    (hsha : ∀ p ∈ archiveMembers inflate limits archive,
      ∀ q ∈ archiveMembers inflate limits archive', sha256 p.2 = sha256 q.2 → p.2 = q.2) :
    (tree = tree' ∧ OnlyAncestors limits rep tree ∧ OnlyAncestors limits rep' tree') ↔
      NoSpareDirectory (archiveMembers inflate limits archive) ∧
        NoSpareDirectory (archiveMembers inflate limits archive') := by
  obtain ⟨r, i, qs, inv, x, hms, rfl, rfl, hx⟩ := accepted_of_extractTree h
  obtain ⟨r', i', qs', inv', x', hms', rfl, rfl, hx'⟩ := accepted_of_extractTree h'
  rw [hms, hms'] at hsha
  rw [hms, hms', hx.onlyAncestors_iff, hx'.onlyAncestors_iff]
  refine ⟨fun hboth => hboth.2, fun hboth => ⟨?_, hboth⟩⟩
  -- one digest, so one inventory
  have hraw : i.2 = i'.2 :=
    hsha i (by simp) i' (by simp) (sha256_eq_of_digestOf (hx.digest.trans hx'.digest.symm))
  have hparse := hx.parse
  rw [hraw, hx'.parse] at hparse
  cases hparse
  have hdirs := hx.onlyAncestors_iff.mpr hboth.1
  have hdirs' := hx'.onlyAncestors_iff.mpr hboth.2
  rw [OnlyAncestors, hx.mirrors.raw_eq] at hdirs
  rw [OnlyAncestors, hx'.mirrors.raw_eq] at hdirs'
  have hcollision : ∀ p ∈ qs, ∀ q ∈ qs', sha256 p.2 = sha256 q.2 → p.2 = q.2 :=
    fun p hp q hq => hsha p (by simp [hp]) q (by simp [hq])
  have hcollision' : ∀ q ∈ qs', ∀ p ∈ qs, sha256 q.2 = sha256 p.2 → q.2 = p.2 :=
    fun q hq p hp heq => (hcollision p hp q hq heq.symm).symm
  funext p
  refine Option.ext fun n => ⟨fun hp => ?_, fun hp => ?_⟩
  · exact hx.tree_le hx' hcollision (hdirs inv hx.parse) hp
  · exact hx'.tree_le hx hcollision' (hdirs' inv hx'.parse) hp

def polynomialHash (bs : Bytes) : Bytes :=
  let n := bs.foldl (fun n b => (n * 257 + b.toNat + 1) % 2 ^ 256) 0
  (List.range 32).map fun k => UInt8.ofNat (n / 256 ^ k % 256)

def oneFileInventory : Bytes :=
  bytesOf "\x7b\"files\":[\x7b\"path\":\"f\",\"size\":1,\"sha256\":\"" ++
    digestOf polynomialHash (bytesOf "x") ++ bytesOf "\",\"mode\":\"file\"\x7d],\"installed_bytes\":1\x7d"

/-- The archive of that file, with the directories `dirs` beside it. -/
def oneFileMembers (dirs : List Bytes) : List (TarMember × Bytes) :=
  [(⟨bytesOf "r", 0, tarModeDir, tarTypeDirectory, true⟩, []),
    (⟨bytesOf "r/inventory.json", oneFileInventory.length, tarModeRegular, tarTypeRegular, false⟩,
    oneFileInventory)] ++
  dirs.map (fun d => (⟨bytesOf "r/" ++ d, 0, tarModeDir, tarTypeDirectory, true⟩, [])) ++
  [(⟨bytesOf "r/f", 1, tarModeRegular, tarTypeRegular, false⟩, bytesOf "x")]

def oneFileArchive (dirs : List Bytes) : Bytes := (encodeStream (oneFileMembers dirs) []).getD []

def zeroTreeLimits : TreeLimits := ⟨0, 0, 0, 0, 0, 0⟩

theorem extractTree_oneFile (dirs : List Bytes) (h : dirs = [] ∨ dirs = [bytesOf "d"]) :
    ∃ rep tree, extractTree polynomialHash zeroTreeLimits (digestOf polynomialHash oneFileInventory) some
      (oneFileArchive dirs) = .ok (rep, tree) ∧ tree (bytesOf "d") = if dirs = [] then none
          else some .dir := by
  have hrun : (extractTree polynomialHash zeroTreeLimits (digestOf polynomialHash oneFileInventory) some
      (oneFileArchive dirs)).map (·.2 (bytesOf "d")) = .ok (if dirs = [] then none else some .dir) := by
    rcases h with rfl | rfl <;> decide +kernel
  obtain ⟨⟨rep, tree⟩, hrun, hd⟩ := map_eq_ok.mp hrun
  exact ⟨rep, tree, hrun, hd⟩

theorem polynomialHash_oneFile : ∀ p ∈ archiveMembers some zeroTreeLimits (oneFileArchive []),
    ∀ q ∈ archiveMembers some zeroTreeLimits (oneFileArchive [bytesOf "d"]),
      polynomialHash p.2 = polynomialHash q.2 → p.2 = q.2 := by
  decide +kernel

theorem trees_identical_oneFile : ∃ rep tree rep' tree',
    extractTree polynomialHash zeroTreeLimits (digestOf polynomialHash oneFileInventory) some
      (oneFileArchive []) = .ok (rep, tree) ∧
    extractTree polynomialHash zeroTreeLimits (digestOf polynomialHash oneFileInventory) some
      (oneFileArchive [bytesOf "d"]) = .ok (rep', tree') ∧
    ((tree = tree' ∧ OnlyAncestors zeroTreeLimits rep tree ∧ OnlyAncestors zeroTreeLimits rep' tree') ↔
      NoSpareDirectory (archiveMembers some zeroTreeLimits (oneFileArchive [])) ∧
        NoSpareDirectory (archiveMembers some zeroTreeLimits (oneFileArchive [bytesOf "d"]))) := by
  obtain ⟨rep, tree, hrun, -⟩ := extractTree_oneFile [] (.inl rfl)
  obtain ⟨rep', tree', hrun', -⟩ := extractTree_oneFile [bytesOf "d"] (.inr rfl)
  exact ⟨rep, tree, rep', tree', hrun, hrun', trees_identical_iff hrun hrun' polynomialHash_oneFile⟩

/-- An empty directory beside the file is extracted, and the inventory does not say so. -/
theorem spare_directory_extracted : ∃ rep tree rep' tree',
    extractTree polynomialHash zeroTreeLimits (digestOf polynomialHash oneFileInventory) some
      (oneFileArchive []) = .ok (rep, tree) ∧
    extractTree polynomialHash zeroTreeLimits (digestOf polynomialHash oneFileInventory) some
      (oneFileArchive [bytesOf "d"]) = .ok (rep', tree') ∧
    (∀ p ∈ archiveMembers some zeroTreeLimits (oneFileArchive []),
      ∀ q ∈ archiveMembers some zeroTreeLimits (oneFileArchive [bytesOf "d"]),
        polynomialHash p.2 = polynomialHash q.2 → p.2 = q.2) ∧
    tree ≠ tree' := by
  obtain ⟨rep, tree, hrun, hd⟩ := extractTree_oneFile [] (.inl rfl)
  obtain ⟨rep', tree', hrun', hd'⟩ := extractTree_oneFile [bytesOf "d"] (.inr rfl)
  refine ⟨rep, tree, rep', tree', hrun, hrun', polynomialHash_oneFile, ?_⟩
  rintro rfl
  rw [hd] at hd'
  cases hd'

end AiiOs.PackageFmt
