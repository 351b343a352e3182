import AiiOs.Lib.Fold
import AiiOs.Lib.Text
import Mathlib.Data.Set.List

/-! internal/escrow, snapshot.go: a snapshot is written, verified and opened. age and the
tar library are taken as lossless; a path is the list of its components. -/

namespace AiiOs.Escrow
open Lib List

def slash : UInt8 := 47
def backslash : UInt8 := 92
def dot : Bytes := [46]
def dotdot : Bytes := [46, 46]

/-- `SHA256SUMS`. -/
def sumsName : Bytes := bytesOf "SHA256SUMS"

/-! ### Paths -/

def joinPath (path : List Bytes) : Bytes := [slash].intercalate path

def components (name : Bytes) : List Bytes := name.splitOn slash

/-- One element of the path, on those kept so far. -/
def cleanStep (rooted : Bool) (out : List Bytes) (c : Bytes) : List Bytes :=
  if c = [] ∨ c = dot then out
  else if c = dotdot then
    if out.getLast?.any (· ≠ dotdot) then out.dropLast else if rooted then out else out ++ [c]
  else out ++ [c]

/-- `path.Clean`. -/
def clean (name : Bytes) : Bytes := let rooted := name.head? = some slash
  let path := joinPath ((components name).foldl (cleanStep rooted) [])
  if rooted then slash :: path else if path = [] then dot else path

/-- A name a directory can hold. -/
structure Plain (c : Bytes) : Prop where
  ne_nil : c ≠ []
  slash : slash ∉ c
  dot : c ≠ dot
  dotdot : c ≠ dotdot

/-- What is under a directory, its directories apart, as a walk comes by it; `none` is
something that is not a regular file. -/
structure Dir where
  entries : List (List Bytes × Option Bytes)
  plain : ∀ e ∈ entries, e.1 ≠ [] ∧ ∀ c ∈ e.1, Plain c
  -- a file is at one place and is not a directory
  apart : ∀ e ∈ entries, ∀ f ∈ entries, e.1 <+: f.1 → e = f

def Dir.read (d : Dir) (name : Bytes) : Option (Option Bytes) :=
  (d.entries.find? fun e => e.1 = components (clean name)).map Prod.snd

/-! ### Archives -/

structure Member where
  name : Bytes
  regular : Bool
  content : Bytes
  deriving DecidableEq

/-- What a tar reader finds: the members, whether it then fails, and what lies behind the end. -/
structure Archive where
  members : List Member
  broken : Bool
  follows : Bytes

structure Age (γ κ ρ : Type) where
  parseRecipient : Bytes → Option ρ
  parseIdentities : Bytes → Option κ
  encrypt : ρ → Archive → γ
  decrypt : κ → γ → Option Archive
  lossless : ∀ k r a a', decrypt k (encrypt r a) = some a' → a' = a

inductive SnapshotError
  | recipient
  | exists
  | unreadable (name : Bytes)
  | notPlainFile (name : Bytes)
  | key
  | undecryptable
  | notArchive
  | mismatch (i : Nat) (name : Bytes)
  | digest (name : Bytes)
  | count (n : Nat)
  | follows
  | path (name : Bytes)
  | notDirectory (name : Bytes)
  | taken (name : Bytes)
  deriving DecidableEq

/-- `filesUnder` of the continuity. -/
def filesUnder (d : Dir) : Except SnapshotError (List Bytes) := d.entries.foldlM (fun out e =>
    match e.2 with
    | none => .error (.notPlainFile (joinPath e.1))
    | some _ => .ok (if joinPath e.1 = sumsName then out else out ++ [joinPath e.1])) []

def addToTar (d : Dir) (name : Bytes) : Except SnapshotError Member := match d.read name with
  | none => .error (.unreadable name)
  | some none => .error (.notPlainFile name)
  | some (some content) => .ok ⟨name, true, content⟩

variable {γ κ ρ σ : Type}

section
variable (age : Age γ κ ρ)

/-- `there` says whether the destination exists. -/
def encryptSnapshot (d : Dir) (names : List Bytes) (recipient : Bytes) (there : Bool) :
    Except SnapshotError γ :=
  match age.parseRecipient recipient with
  | none => .error .recipient
  | some r =>
    if there then .error .exists
    else (names.mapM (addToTar d)).map fun members => age.encrypt r ⟨members, false, []⟩

def walkMembers (fn : Nat → Member → σ → Except SnapshotError σ) :
    Nat → List Member → σ → Except SnapshotError σ
  | _, [], s => .ok s
  | i, m :: ms, s =>
    if !m.regular then .error (.notPlainFile m.name) else fn i m s >>= walkMembers fn (i + 1) ms

def walkSnapshot (src : γ) (key : Bytes) (fn : Nat → Member → σ → Except SnapshotError σ)
    (done : Nat → Except SnapshotError Unit) (s : σ) : Except SnapshotError σ :=
  match age.parseIdentities key with
  | none => .error .key
  | some k =>
    match age.decrypt k src with
    | none => .error .undecryptable
    | some a => do
      let s ← walkMembers fn 0 a.members s
      if a.broken then .error .notArchive
      else if a.follows.any (· ≠ 0) then .error .follows
      else (done a.members.length).map fun _ => s

def verifyMember (sha256 : Bytes → Bytes) (names : List Bytes) (want : Bytes → Bytes) (i : Nat)
    (m : Member) (_ : Unit) :
    Except SnapshotError Unit :=
  if names[i]? ≠ some m.name then .error (.mismatch i m.name)
  else if sha256 m.content ≠ want m.name then .error (.digest m.name)
  else .ok ()

def verifySnapshot (sha256 : Bytes → Bytes) (src : γ) (key : Bytes) (names : List Bytes)
    (want : Bytes → Bytes) : Except SnapshotError Unit :=
  walkSnapshot age src key (verifyMember sha256 names want)
    (fun n => if n ≠ names.length then .error (.count n) else .ok ()) ()

/-- The files written so far under the new directory; the names are returned with them. -/
abbrev Written := List (List Bytes × Bytes)

def outside (name : Bytes) : Prop :=
  clean name ≠ name ∨ name.head? = some slash ∨ name = dot ∨ name = dotdot ∨
    (dotdot ++ [slash]) <+: name ∨ backslash ∈ name

instance (name : Bytes) : Decidable (outside name) := inferInstanceAs (Decidable (_ ∨ _))

def openMember (_ : Nat) (m : Member) (out : Written) : Except SnapshotError Written :=
  let dst := components m.name
  if outside m.name then .error (.path m.name)
  -- a directory on the way is a file
  else if out.any fun f => f.1.isPrefixOf dst.dropLast then .error (.notDirectory m.name)
  -- the file is there, or it is a directory
  else if out.any fun f => dst.isPrefixOf f.1 then .error (.taken m.name)
  else .ok (out ++ [(dst, m.content)])

def openSnapshot (src : γ) (key : Bytes) (there : Bool) : Except SnapshotError Written :=
  if there then .error .exists else walkSnapshot age src key openMember (fun _ => .ok ()) []

end

/-! ### Plain paths -/

variable {path : List Bytes}

theorem components_joinPath (hne : path ≠ []) (h : ∀ c ∈ path, Plain c) : components (joinPath path) = path :=
  splitOn_intercalate slash (fun c hc => (h c hc).slash) hne

theorem foldl_cleanStep (rooted : Bool) (out : List Bytes) (h : ∀ c ∈ path, Plain c) :
    path.foldl (cleanStep rooted) out = out ++ path := by
  induction path generalizing out with
  | nil => simp
  | cons c path ih =>
    rw [forall_mem_cons] at h
    have hstep : cleanStep rooted out c = out ++ [c] := by
      rw [cleanStep, if_neg (not_or.mpr ⟨h.1.ne_nil, h.1.dot⟩), if_neg h.1.dotdot]
    rw [foldl_cons, hstep, ih _ h.2, append_assoc, singleton_append]

section
variable (hne : path ≠ []) (h : ∀ c ∈ path, Plain c)
include hne h

theorem head?_joinPath : joinPath path ≠ [] ∧ (joinPath path).head? ≠ some slash := by
  cases path with
  | nil => exact absurd rfl hne
  | cons c path =>
    have hc := h c mem_cons_self
    cases hc' : c with
    | nil => exact absurd hc' hc.ne_nil
    | cons b c =>
      have hb : b ≠ slash := fun hb => hc.slash (by simp [hc', hb])
      cases path <;> simp [joinPath, hb]

theorem clean_joinPath : clean (joinPath path) = joinPath path := by
  obtain ⟨hnil, hhead⟩ := head?_joinPath hne h
  rw [clean, components_joinPath hne h, foldl_cleanStep _ _ h]
  simp [hnil, hhead]

/-- Of what a walk lists, only a name with a backslash is refused. -/
theorem outside_joinPath : outside (joinPath path) ↔ backslash ∈ joinPath path := by
  have hone : ∀ c, joinPath path = c → components c = path := fun c hc => hc ▸ components_joinPath hne h
  refine ⟨?_, fun hb => .inr (.inr (.inr (.inr (.inr hb))))⟩
  rintro (hclean | habs | hdot | hdotdot | ⟨rest, hup⟩ | hb)
  · exact absurd (clean_joinPath hne h) hclean
  · exact absurd habs (head?_joinPath hne h).2
  · exact absurd rfl (h dot (hone _ hdot ▸ by decide)).dot
  · exact absurd rfl (h dotdot (hone _ hdotdot ▸ by decide)).dotdot
  · have hpath := hone _ hup.symm
    exact absurd rfl (h dotdot (hpath ▸ mem_cons_self)).dotdot
  · exact hb

end

/-! ### Files under a directory -/

/-- A regular file of a directory. -/
structure File (d : Dir) where
  path : List Bytes
  content : Bytes
  mem : (path, some content) ∈ d.entries

variable {d : Dir}

namespace File
variable {f g : File d}

def name (f : File d) : Bytes := joinPath f.path

def member (f : File d) : Member := ⟨f.name, true, f.content⟩

def written (f : File d) : List Bytes × Bytes := (f.path, f.content)

theorem components_name (f : File d) : components f.name = f.path :=
  components_joinPath (d.plain _ f.mem).1 (d.plain _ f.mem).2

theorem eq_of_isPrefix (h : f.path <+: g.path) : f = g := by
  have heq := d.apart _ f.mem _ g.mem h
  cases f
  cases heq
  rfl

theorem read_name (f : File d) : d.read f.name = some (some f.content) := by
  rw [Dir.read, name, clean_joinPath (d.plain _ f.mem).1 (d.plain _ f.mem).2, ← name, f.components_name]
  cases hfind : d.entries.find? fun e => e.1 = f.path with
  | none => exact absurd (List.find?_eq_none.mp hfind _ f.mem) (by simp)
  | some e =>
    have hpath : e.1 = f.path := by simpa using find?_some hfind
    rw [d.apart e (mem_of_find?_eq_some hfind) _ f.mem (hpath ▸ prefix_rfl)]
    rfl

/-- The files opened before are elsewhere, so only the name decides. -/
theorem openMember_member {before : List (File d)} (hnew : f ∉ before) (i : Nat) :
    openMember i f.member (before.map written) =
      if backslash ∈ f.name then .error (.path f.name) else .ok ((before ++ [f]).map written) := by
  have hway : ¬ ((before.map written).any (·.1.isPrefixOf f.path.dropLast)) := by
    simp only [List.any_map, List.any_eq_true, Function.comp_apply, isPrefixOf_iff_prefix]
    rintro ⟨g, hg, hpre⟩
    exact hnew (eq_of_isPrefix (hpre.trans (List.dropLast_prefix _)) ▸ hg)
  have hfree : ¬ ((before.map written).any (f.path.isPrefixOf ·.1)) := by
    simp only [List.any_map, List.any_eq_true, Function.comp_apply, isPrefixOf_iff_prefix]
    rintro ⟨g, hg, hpre⟩
    exact hnew (eq_of_isPrefix hpre ▸ hg)
  have houtside : outside f.name ↔ backslash ∈ f.name :=
    outside_joinPath (d.plain _ f.mem).1 (d.plain _ f.mem).2
  simp only [openMember, member, f.components_name, houtside, if_neg hway, if_neg hfree]
  rw [map_append]
  rfl

end File

open File

theorem mem_range_name {listed : List Bytes} (h : filesUnder d = .ok listed) :
    ∀ n ∈ listed, n ∈ Set.range (name (d := d)) := by
  refine foldlM_ok_invariant (P := fun out => ∀ n ∈ out, n ∈ Set.range (name (d := d))) h (by simp) ?_
  rintro out ⟨path, content⟩ out' he hout hstep
  cases content with
  | none => cases hstep
  | some content =>
    cases hstep
    split_ifs
    · exact hout
    · intro n hn
      rcases mem_append.mp hn with hn | hn
      · exact hout n hn
      · exact ⟨⟨path, content, he⟩, (mem_singleton.mp hn).symm⟩

theorem mapM_addToTar (files : List (File d)) :
    (files.map name).mapM (addToTar d) = .ok (files.map member) := by
  induction files with
  | nil => rfl
  | cons f files ih =>
    simp [addToTar, f.read_name, ih, Bind.bind, Except.bind, pure, Except.pure]
    rfl

theorem walkMembers_openMember {before files : List (File d)} {i : Nat} (hnodup : (before ++ files).Nodup)
    {out : Written} : walkMembers openMember i (files.map member) (before.map written) = .ok out ↔
      (∀ f ∈ files, backslash ∉ f.name) ∧ out = (before ++ files).map written := by
  induction files generalizing before i with
  | nil => simp [walkMembers, eq_comm]
  | cons f files ih =>
    have hnew : f ∉ before := fun hf => (nodup_append.mp hnodup).2.2 f hf f mem_cons_self rfl
    have hrest : ((before ++ [f]) ++ files).Nodup := by simpa using hnodup
    rw [map_cons, walkMembers, openMember_member hnew, forall_mem_cons]
    by_cases hb : backslash ∈ f.name
    · rw [if_pos hb]
      exact iff_of_false (fun h => by cases h) fun h => h.1.1 hb
    · rw [if_neg hb]
      refine (ih hrest).trans ?_
      simp [hb]

theorem walkSnapshot_eq_ok {age : Age γ κ ρ} {src : γ} {key : Bytes}
    {fn : Nat → Member → σ → Except SnapshotError σ} {done : Nat → Except SnapshotError Unit} {s t : σ} :
    walkSnapshot age src key fn done s = .ok t ↔ ∃ k a, age.parseIdentities key = some k ∧
      age.decrypt k src = some a ∧ walkMembers fn 0 a.members s = .ok t ∧ a.broken = false ∧
      (a.follows.any (· ≠ 0)) = false ∧ done a.members.length = .ok () := by
  rw [walkSnapshot]
  cases hk : age.parseIdentities key with
  | none => simp
  | some k =>
    cases ha : age.decrypt k src with
    | none => simp [ha]
    | some a =>
      simp only [ha, bind_eq_ok, ite_error_eq_ok, map_eq_ok, Option.some_inj, Bool.not_eq_true]
      constructor
      · rintro ⟨_, hs, hb, hf, _, hdone, rfl⟩
        exact ⟨k, a, rfl, ha, hs, hb, hf, hdone⟩
      · rintro ⟨_, a', rfl, ha', hs, hb, hf, hdone⟩
        cases ha.symm.trans ha'
        exact ⟨t, hs, hb, hf, (), hdone, rfl⟩

def Dir.content (d : Dir) (name : Bytes) : Bytes := ((d.read name).getD none).getD []

/-- A snapshot of what a walk lists, once verified, opens to those files with those bytes
exactly when no name has a backslash in it. -/
theorem proved_snapshot_opens_iff (age : Age γ κ ρ) (sha256 want : Bytes → Bytes) (d : Dir)
    (listed names : List Bytes) (recipient key : Bytes) (src : γ) (hlisted : filesUnder d = .ok listed)
    (hnames : ∀ n ∈ names, n ∈ listed) (hnodup : names.Nodup)
    (hencrypt : encryptSnapshot age d names recipient false = .ok src)
    (hverify : verifySnapshot age sha256 src key names want = .ok ()) :
    openSnapshot age src key false = .ok (names.map fun n => (components n, d.content n)) ↔
      ∀ n ∈ names, backslash ∉ n := by
  have hrange : names ∈ Set.range (.map (name (d := d))) := by
    rw [Set.range_list_map]
    exact fun n hn => mem_range_name hlisted n (hnames n hn)
  obtain ⟨files, rfl⟩ := hrange
  have hwritten : ((files.map name).map fun n => (components n, d.content n)) = files.map written := by
    rw [List.map_map]
    refine map_congr_left fun f _ => ?_
    simp [f.components_name, Dir.content, f.read_name, written]
  rw [hwritten]
  obtain ⟨k, a, hk, ha, -⟩ := walkSnapshot_eq_ok.mp hverify
  rw [encryptSnapshot] at hencrypt
  split at hencrypt
  · cases hencrypt
  rename_i r hr
  rw [mapM_addToTar] at hencrypt
  cases hencrypt
  obtain rfl := age.lossless _ _ _ _ ha
  have hopen := @walkMembers_openMember d [] files 0 hnodup.of_map (files.map written)
  rw [openSnapshot, if_neg Bool.false_ne_true, walkSnapshot_eq_ok, List.forall_mem_map]
  constructor
  · rintro ⟨k', a, hk', ha', hwalk, -⟩
    obtain rfl := age.lossless _ _ _ _ ha'
    exact (hopen.mp hwalk).1
  · intro hnames
    exact ⟨k, _, hk, ha, hopen.mpr ⟨hnames, rfl⟩, rfl, rfl, rfl⟩

/-- An age that hides nothing, and a directory with one file. -/
def plainAge : Age Archive Unit Unit :=
  ⟨fun _ => some (), fun _ => some (), fun _ a => a, fun _ a => some a, fun _ _ _ _ h =>
    (Option.some_inj.mp h).symm⟩

def oneFile (name : Bytes) (h : Plain name) : Dir where
  entries := [([name], some [1])]
  plain := by simp [h]
  apart := by simp

theorem plain_x : Plain [120] := by constructor <;> decide

theorem plain_backslash : Plain [120, backslash] := by constructor <;> decide

theorem proved_snapshot_opens_iff_one :
    openSnapshot plainAge ⟨[⟨[120], true, [1]⟩], false, []⟩ [] false = .ok [([[120]], [1])] := by
  have hiff := proved_snapshot_opens_iff plainAge id (fun _ => [1]) (oneFile _ plain_x) [[120]] [[120]] [] []
    ⟨[⟨[120], true, [1]⟩], false, []⟩ rfl (by simp) (by simp) rfl rfl
  exact hiff.mpr (by decide)

theorem proved_snapshot_not_opened :
    filesUnder (oneFile _ plain_backslash) = .ok [[120, backslash]] ∧
      ∃ src, encryptSnapshot plainAge (oneFile _ plain_backslash) [[120, backslash]] [] false = .ok src ∧
        verifySnapshot plainAge id src [] [[120, backslash]] (fun _ => [1]) = .ok () ∧
        openSnapshot plainAge src [] false = .error (.path [120, backslash]) :=
  ⟨rfl, _, rfl, rfl, rfl⟩

end AiiOs.Escrow
