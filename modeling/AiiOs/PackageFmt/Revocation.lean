import AiiOs.Lib.Fold
import AiiOs.Lib.Procs
import AiiOs.Lib.Text

/-! internal/packagefmt, revocation.go: the revocation status of each pinned root is read
from a signed file, and a guard keeps the highest trust epoch that was accepted, so that no
older file takes the place of a newer one. -/

namespace AiiOs.PackageFmt.Revocation
open Lib List

/-! ### Snapshots -/

/-- The type of a root's key, by which everything here goes. -/
inductive KeyType
  | publisherCertifier
  | reviewer
  | platformRelease
  deriving DecidableEq, Repr

inductive ArtifactKind
  | publisherCert
  | manifestSig
  | attestation
  | platformSig
  | hostRelease
  | other (name : List Char)
  deriving DecidableEq, Repr

/-- `revocationDomains`. -/
def KeyType.artifactKinds : KeyType → List ArtifactKind
  | .publisherCertifier => [.publisherCert, .manifestSig]
  | .reviewer => [.attestation]
  | .platformRelease => [.platformSig, .hostRelease]

def domains : List KeyType := [.publisherCertifier, .reviewer, .platformRelease]

structure RevokedEntry where
  artifactKind : ArtifactKind
  payloadSHA256 : List Char
  deriving DecidableEq, Repr

structure RevocationPayload where
  schemaVersion : Option Int
  trustEpoch : Option Int
  revoked : Option (List RevokedEntry)
  deriving DecidableEq, Repr

structure RootSnapshot where
  domain : KeyType
  trustEpoch : Int
  payloadSHA256 : List Char
  revoked : List RevokedEntry
  deriving DecidableEq, Repr

inductive Refusal
  | rootInvalid
  | rootKeyType
  | signature
  | payload
  | missingMember
  | schemaVersion
  | trustEpoch
  | foreignKind
  | digest
  | unsorted
  | canonicalize
  | noRoot
  | unreadable
  | missing
  | highWaterRead
  | rollback
  | fork
  | acceptance
  deriving DecidableEq, Repr

/-- What the reading of a snapshot rests on: the keys and signatures, the decoder, the order
of the entries' keys, the digest of the canonical payload, and what the program ships: every status
file under shipped/ is of the first epoch. -/
structure Env (Key : Type) where
  validRoot : Key → Bool
  keyType : Key → KeyType
  keyID : Key → List Char
  verifyPayload : Bytes → Key → Option Bytes
  strictDecode : Bytes → Option RevocationPayload
  validDigest : List Char → Bool
  before : RevokedEntry → RevokedEntry → Bool
  digest : Bytes → Option (List Char)
  shippedRoot : KeyType → Option Key
  shippedSnapshot : KeyType → Option Bytes
  shipped_first : ∀ d raw root payload p, shippedSnapshot d = some raw →
    verifyPayload raw root = some payload → strictDecode payload = some p → p.trustEpoch = some 1

section
variable {Key : Type} (env : Env Key)

def checkEntries (d : KeyType) : Option RevokedEntry → List RevokedEntry → Except Refusal Unit
  | _, [] => .ok ()
  | prev, e :: es =>
    if e.artifactKind ∉ d.artifactKinds then .error .foreignKind
    else if !env.validDigest e.payloadSHA256 then .error .digest
    else if prev.any fun p => !env.before p e then .error .unsorted
    else checkEntries d (some e) es

def parseRootSnapshot (raw : Bytes) (d : KeyType) (root : Key) : Except Refusal RootSnapshot :=
  if !env.validRoot root then .error .rootInvalid
  else if env.keyType root ≠ d then .error .rootKeyType
  else
    match env.verifyPayload raw root with
    | none => .error .signature
    | some payload =>
      match env.strictDecode payload with
      | none => .error .payload
      | some ⟨some version, some epoch, some revoked⟩ =>
        if version ≠ 1 then .error .schemaVersion
        else if epoch < 1 then .error .trustEpoch
        else do
          checkEntries env d none revoked
          match env.digest payload with
          | none => .error .canonicalize
          | some sha => .ok ⟨d, epoch, sha, revoked⟩
      | some _ => .error .missingMember

/-! ### The guard -/

/-- A row of `trust_epochs`. -/
structure Mark where
  root : KeyType
  trustEpoch : Int
  payloadSHA256 : List Char
  deriving DecidableEq, Repr

def highWater (marks : List Mark) (root : KeyType) : Option Mark := marks.reverse.find? fun m => m.root = root

structure Answers where
  readFails : Bool
  ending : Ending
  deriving DecidableEq, Repr

def acceptTrustEpoch (ending : Ending) (marks : List Mark) (snap : RootSnapshot) :
    Except Refusal Unit × List Mark :=
  ending.of .acceptance marks
    (.ok ((), marks ++ [⟨snap.domain, snap.trustEpoch, snap.payloadSHA256⟩]))

def applyEpochGuard (a : Answers) (marks : List Mark) (snap : RootSnapshot) (record : Bool) :
    Except Refusal Unit × List Mark :=
  if a.readFails then (.error .highWaterRead, marks)
  else
    let above := if record then acceptTrustEpoch a.ending marks snap else (.ok (), marks)
    match highWater marks snap.domain with
    | none => above
    | some hw =>
      if snap.trustEpoch < hw.trustEpoch then (.error .rollback, marks)
      else if snap.trustEpoch = hw.trustEpoch then
        if snap.payloadSHA256 ≠ hw.payloadSHA256 then (.error .fork, marks) else (.ok (), marks)
      else above

inductive StatusFile
  | missing
  | unreadable
  | contents (raw : Bytes)
  deriving DecidableEq, Repr

def sameRoot (a b : Option Key) : Bool := match a, b with
  | some a, some b => env.keyID a = env.keyID b
  | _, _ => false

def isShipped (d : KeyType) (root : Key) (raw : Bytes) : Bool :=
  sameRoot env (some root) (env.shippedRoot d) && env.shippedSnapshot d = some raw

/-- With a guard, no snapshot stands in for a file that is missing. -/
def loadRootSnapshot (d : KeyType) (root : Option Key) (file : StatusFile) (a : Answers) (marks : List Mark) :
    Except Refusal RootSnapshot × List Mark :=
  match root, file with
  | none, _ => (.error .noRoot, marks)
  | some _, .missing => (.error .missing, marks)
  | some _, .unreadable => (.error .unreadable, marks)
  | some root, .contents raw =>
    match parseRootSnapshot env raw d root with
    | .error e => (.error e, marks)
    | .ok snap =>
      match applyEpochGuard a marks snap (!isShipped env d root raw) with
      | (.error e, marks) => (.error e, marks)
      | (.ok (), marks) => (.ok snap, marks)

/-! ### Loads -/

/-- A snapshot that was accepted; `own` says that it is the one the program ships. -/
structure Accepted where
  snap : RootSnapshot
  own : Bool
  deriving DecidableEq, Repr

/-- The guard's rows and the snapshots that were accepted, the last one last. -/
structure State where
  marks : List Mark
  accepted : List Accepted
  deriving DecidableEq, Repr

def State.take (s : State) (own : Bool) : Except Refusal RootSnapshot × List Mark → State
  | (.error _, marks) => { s with marks := marks }
  | (.ok snap, marks) => ⟨marks, s.accepted ++ [⟨snap, own⟩]⟩

def ownFile (d : KeyType) (root : Option Key) : StatusFile → Bool
  | .contents raw => root.any fun root => isShipped env d root raw
  | _ => false

abbrev Load := KeyType → StatusFile × Answers

def loadRevocationStatus (roots : KeyType → Option Key) (s : State) (x : Load) : State :=
  domains.foldl (fun s d => s.take (ownFile env d (roots d) (x d).1)
    (loadRootSnapshot env d (roots d) (x d).1 (x d).2 s.marks)) s

def loads (roots : KeyType → Option Key) (marks : List Mark) (xs : List Load) : State :=
  xs.foldl (loadRevocationStatus env roots) ⟨marks, []⟩

/-! ### Epochs do not go back -/

/-- Of one root, a later snapshot has no lower epoch, and the same digest in the same epoch. -/
def Follows (a b : RootSnapshot) : Prop :=
  a.domain = b.domain → a.trustEpoch ≤ b.trustEpoch ∧
    (a.trustEpoch = b.trustEpoch → a.payloadSHA256 = b.payloadSHA256)

instance : DecidableRel Follows := fun _ _ => inferInstanceAs (Decidable (_ → _))

variable {env} {marks : List Mark} {snap : RootSnapshot} {s : State}

theorem parseRootSnapshot_eq_ok {raw : Bytes} {d : KeyType} {root : Key}
    (h : parseRootSnapshot env raw d root = .ok snap) :
    snap.domain = d ∧ 1 ≤ snap.trustEpoch ∧ (env.shippedSnapshot d = some raw → snap.trustEpoch = 1) := by
  unfold parseRootSnapshot at h
  split_ifs at h
  cases hpay : env.verifyPayload raw root with
  | none => simp [hpay] at h
  | some payload =>
    cases hdec : env.strictDecode payload with
    | none => simp [hpay, hdec] at h
    | some p =>
      simp only [hpay, hdec] at h
      split at h
      · cases h
      · rename_i version epoch revoked heq
        split_ifs at h with hversion hepoch
        obtain ⟨-, -, h⟩ := bind_eq_ok.mp h
        split at h <;> cases h
        refine ⟨rfl, not_lt.mp hepoch, fun hraw => ?_⟩
        have hfirst := env.shipped_first d raw root payload p hraw hpay hdec
        cases heq
        exact Option.some.inj hfirst
      · cases h

theorem highWater_concat (m : Mark) (root : KeyType) :
    highWater (marks ++ [m]) root = if m.root = root then some m else highWater marks root := by
  unfold highWater
  by_cases h : m.root = root <;> simp [h]

theorem highWater_root {m : Mark} {root : KeyType} (h : highWater marks root = some m) : m.root = root := by
  simpa using find?_some h

def Mark.snapshot (m : Mark) : RootSnapshot := ⟨m.root, m.trustEpoch, m.payloadSHA256, []⟩

def RootSnapshot.mark (s : RootSnapshot) : Mark := ⟨s.domain, s.trustEpoch, s.payloadSHA256⟩

def Rises (marks marks' : List Mark) : Prop :=
  ∀ root m, highWater marks root = some m → ∃ m', highWater marks' root = some m' ∧
    Follows m.snapshot m'.snapshot

theorem Rises.refl (marks : List Mark) :
    Rises marks marks := fun _ m hm => ⟨m, hm, fun _ => ⟨le_rfl, fun _ => rfl⟩⟩

theorem acceptTrustEpoch_rises (ending : Ending)
    (h : ∀ m, highWater marks snap.domain = some m → m.trustEpoch < snap.trustEpoch) :
    Rises marks (acceptTrustEpoch ending marks snap).2 := by
  have hrow : Rises marks (marks ++ [⟨snap.domain, snap.trustEpoch, snap.payloadSHA256⟩]) := by
    intro root m hm
    rw [highWater_concat]
    by_cases hr : snap.domain = root
    · subst hr
      rw [if_pos rfl]
      have hlt := h m hm
      exact ⟨_, rfl, fun _ => ⟨hlt.le, fun heq => absurd heq hlt.ne⟩⟩
    · rw [if_neg hr]
      exact ⟨m, hm, fun _ => ⟨le_rfl, fun _ => rfl⟩⟩
  cases ending with
  | failed => exact .refl marks
  | done => exact hrow
  | lost => exact hrow

/-- The marks rise, a snapshot that is let through does not fall behind the mark, and one that
is to be recorded is the mark then. -/
theorem applyEpochGuard_spec (a : Answers) (marks : List Mark) (snap : RootSnapshot) (record : Bool) :
    Rises marks (applyEpochGuard a marks snap record).2 ∧
      ((applyEpochGuard a marks snap record).1 = .ok () →
        (∀ m, highWater marks snap.domain = some m → Follows m.snapshot snap) ∧
          (record → highWater (applyEpochGuard a marks snap record).2 snap.domain = some snap.mark)) := by
  -- both ways to accept a later epoch end in the same write
  have habove : (∀ m, highWater marks snap.domain = some m → m.trustEpoch < snap.trustEpoch) →
      Rises marks (if record then acceptTrustEpoch a.ending marks snap else (.ok (), marks)).2 := by
    intro h
    split_ifs
    · exact acceptTrustEpoch_rises _ h
    · exact .refl marks
  have hmark : record →
      (if record then acceptTrustEpoch a.ending marks snap else (.ok (), marks)).1 = .ok () →
      highWater (if record then acceptTrustEpoch a.ending marks snap else (.ok (), marks)).2 snap.domain =
        some snap.mark := by
    rintro rfl hok
    cases hend : a.ending with
    | done =>
      change highWater (marks ++ [snap.mark]) snap.domain = _
      rw [highWater_concat]
      exact if_pos rfl
    | failed =>
      rw [hend] at hok
      cases hok
    | lost =>
      rw [hend] at hok
      cases hok
  unfold applyEpochGuard
  split
  · exact ⟨.refl marks, nofun⟩
  cases hhw : highWater marks snap.domain with
  | none => exact ⟨habove (by rw [hhw]; nofun), fun hok => ⟨nofun, fun hr => hmark hr hok⟩⟩
  | some hw =>
    dsimp only
    split
    · exact ⟨.refl marks, nofun⟩
    rename_i hlt
    -- the same epoch again is accepted only with the same payload
    split
    · rename_i heq
      split_ifs with hsha
      · exact ⟨.refl marks, nofun⟩
      · refine ⟨.refl marks, fun _ => ⟨?_, fun _ => ?_⟩⟩
        · rintro m ⟨⟩ -
          exact ⟨heq.ge, fun _ => (not_not.mp hsha).symm⟩
        · rw [hhw, RootSnapshot.mark, heq, not_not.mp hsha, ← highWater_root hhw]
    · rename_i heq
      have habv : hw.trustEpoch < snap.trustEpoch := lt_of_le_of_ne (not_lt.mp hlt) (.symm heq)
      refine ⟨habove ?_, fun hok => ⟨?_, fun hr => hmark hr hok⟩⟩
      · rw [hhw]
        rintro m ⟨⟩
        exact habv
      · rintro m ⟨⟩ -
        exact ⟨habv.le, fun h => absurd h habv.ne⟩

/-- The snapshot is what some file of the root holds. -/
def ReadFrom (env : Env Key) (d : KeyType) (root : Option Key) (a : Accepted) : Prop :=
  ∃ key raw, root = some key ∧ parseRootSnapshot env raw d key = .ok a.snap ∧
    a.own = isShipped env d key raw

theorem loadRootSnapshot_spec (env : Env Key) (d : KeyType) (root : Option Key) (file : StatusFile)
    (a : Answers) (marks : List Mark) :
    Rises marks (loadRootSnapshot env d root file a marks).2 ∧
      ∀ snap, (loadRootSnapshot env d root file a marks).1 = .ok snap →
        ReadFrom env d root ⟨snap, ownFile env d root file⟩ ∧
        (∀ m, highWater marks snap.domain = some m → Follows m.snapshot snap) ∧
          (ownFile env d root file = false →
            highWater (loadRootSnapshot env d root file a marks).2 snap.domain = some snap.mark) := by
  unfold loadRootSnapshot
  split
  · exact ⟨.refl marks, nofun⟩
  · exact ⟨.refl marks, nofun⟩
  · exact ⟨.refl marks, nofun⟩
  · rename_i root raw
    cases hp : parseRootSnapshot env raw d root with
    | error e => exact ⟨.refl marks, nofun⟩
    | ok snap =>
      obtain ⟨hrises, hok⟩ := applyEpochGuard_spec a marks snap (!isShipped env d root raw)
      dsimp only
      generalize applyEpochGuard a marks snap (!isShipped env d root raw) = x at hrises hok
      obtain ⟨r, marks'⟩ := x
      cases r with
      | error e => exact ⟨hrises, nofun⟩
      | ok u =>
        refine ⟨hrises, ?_⟩
        rintro _ ⟨⟩
        refine ⟨⟨_, raw, rfl, hp, rfl⟩, (hok rfl).1, fun hown => (hok rfl).2 ?_⟩
        change isShipped env d root raw = false at hown
        rw [hown]
        rfl

/-- The accepted snapshots follow those before them that are not the program's own, and none
of these is ahead of the mark of its root. -/
structure Sound (env : Env Key) (roots : KeyType → Option Key) (s : State) : Prop where
  read : ∀ a ∈ s.accepted, ReadFrom env a.snap.domain (roots a.snap.domain) a
  follows : s.accepted.Pairwise fun a b => a.own = false → Follows a.snap b.snap
  behind : ∀ a ∈ s.accepted, a.own = false →
    ∃ m, highWater s.marks a.snap.domain = some m ∧ Follows a.snap m.snapshot

theorem Follows.trans {x y z : RootSnapshot} (hd : x.domain = y.domain) (h : Follows x y) (h' : Follows y z) :
    Follows x z := by
  intro hz
  obtain ⟨h1, h2⟩ := h hd
  obtain ⟨h3, h4⟩ := h' (hd.symm.trans hz)
  refine ⟨h1.trans h3, fun heq => ?_⟩
  have hxy : x.trustEpoch = y.trustEpoch := le_antisymm h1 (heq ▸ h3)
  exact (h2 hxy).trans (h4 (hxy ▸ heq))

theorem Sound.take {roots : KeyType → Option Key} (hs : Sound env roots s) {own : Bool} {d : KeyType}
    {x : Except Refusal RootSnapshot × List Mark} (hrises : Rises s.marks x.2)
    (hok : ∀ snap, x.1 = .ok snap → ReadFrom env d (roots d) ⟨snap, own⟩ ∧
      (∀ m, highWater s.marks snap.domain = some m → Follows m.snapshot snap) ∧
      (own = false → highWater x.2 snap.domain = some snap.mark)) :
    Sound env roots (s.take own x) := by
  have hbehind : ∀ a ∈ s.accepted, a.own = false →
      ∃ m, highWater x.2 a.snap.domain = some m ∧ Follows a.snap m.snapshot := by
    intro a ha hown
    obtain ⟨m, hm, hf⟩ := hs.behind a ha hown
    obtain ⟨m', hm', hf'⟩ := hrises _ m hm
    exact ⟨m', hm', hf.trans (highWater_root hm).symm hf'⟩
  obtain ⟨r, marks'⟩ := x
  cases r with
  | error e => exact ⟨hs.read, hs.follows, hbehind⟩
  | ok snap =>
    obtain ⟨hread, habove, hmark⟩ := hok snap rfl
    obtain ⟨_, _, -, hp, -⟩ := id hread
    obtain rfl := (parseRootSnapshot_eq_ok hp).1
    refine ⟨forall_mem_append.mpr ⟨hs.read, by simpa using hread⟩,
      pairwise_append.mpr ⟨hs.follows, pairwise_singleton .., ?_⟩, ?_⟩
    · intro a ha b hb hown
      rw [mem_singleton.mp hb]
      obtain ⟨m, hm, hf⟩ := hs.behind a ha hown
      intro hd
      exact hf.trans (highWater_root hm).symm (habove m (hd ▸ hm)) hd
    · intro a ha hown
      rcases mem_append.mp ha with ha | ha
      · exact hbehind a ha hown
      · rw [mem_singleton.mp ha] at hown ⊢
        exact ⟨_, hmark hown, fun _ => ⟨le_rfl, fun _ => rfl⟩⟩

theorem sound_load (roots : KeyType → Option Key) (x : Load) (hs : Sound env roots s) :
    Sound env roots (loadRevocationStatus env roots s x) := by
  refine List.foldlRecOn (motive := Sound env roots) domains _ hs fun t ht d _ => ?_
  obtain ⟨hrises, hok⟩ := loadRootSnapshot_spec env d (roots d) (x d).1 (x d).2 t.marks
  exact ht.take hrises hok

/-- What is accepted later of a root has no lower epoch, and the same digest in the same epoch, unless
only the earlier one is the program's own. -/
def Accepted.Follows (a b : Accepted) : Prop :=
  a.snap.domain = b.snap.domain → a.snap.trustEpoch ≤ b.snap.trustEpoch ∧
    (a.snap.trustEpoch = b.snap.trustEpoch →
      a.snap.payloadSHA256 = b.snap.payloadSHA256 ∨ a.own ∧ b.own = false)

theorem ReadFrom.follows {d : KeyType} {root : Option Key} {a b : Accepted} (ha : ReadFrom env d root a)
    (hb : ReadFrom env d root b) (hown : a.own) : a.Follows b := by
  obtain ⟨key, raw, rfl, hpa, hoa⟩ := ha
  obtain ⟨_, raw', ⟨⟩, hpb, hob⟩ := hb
  obtain ⟨-, hraw⟩ := Bool.and_eq_true_iff.mp (hoa ▸ hown)
  have hraw : env.shippedSnapshot d = some raw := by simpa using hraw
  obtain ⟨-, -, hfirst⟩ := parseRootSnapshot_eq_ok hpa
  obtain ⟨-, hpos, -⟩ := parseRootSnapshot_eq_ok hpb
  refine fun _ => ⟨by rw [hfirst hraw]; exact hpos, fun _ => ?_⟩
  cases hob' : b.own with
  | false => exact .inr ⟨hown, rfl⟩
  | true =>
    -- both are what the shipped file holds
    obtain ⟨-, hraw'⟩ := Bool.and_eq_true_iff.mp (hob.symm.trans hob')
    obtain rfl : raw = raw' := by simpa [hraw] using hraw'
    have hsame := Except.ok.inj (hpa.symm.trans hpb)
    exact .inl (congrArg RootSnapshot.payloadSHA256 hsame)

/-- Of one root no later snapshot has a lower epoch, and only behind the program's own one is another
one of its epoch accepted. -/
theorem accepted_follow (env : Env Key) (roots : KeyType → Option Key) (marks : List Mark) (xs : List Load) :
    (loads env roots marks xs).accepted.Pairwise Accepted.Follows := by
  have hsound : Sound env roots (loads env roots marks xs) :=
    List.foldlRecOn (motive := Sound env roots) xs _ ⟨nofun, List.Pairwise.nil, nofun⟩
      fun _ ht x _ => sound_load roots x ht
  refine hsound.follows.imp_of_mem fun {a b} ha hb hfollows => ?_
  cases hown : a.own with
  | false => exact fun hd => ((hfollows hown) hd).imp_right fun h heq => .inl (h heq)
  | true =>
    intro hd
    have hread := hsound.read b hb
    rw [← hd] at hread
    exact (hsound.read a ha).follows hread hown hd

end

/-! ### The program's own snapshot -/

/-- A payload is an epoch and a digest; the program ships one of the first epoch. -/
def toyEnv : Env Unit where
  validRoot _ := true
  keyType _ := .reviewer
  keyID _ := []
  verifyPayload raw _ := some raw
  strictDecode
    | [epoch, _] => some ⟨some 1, some epoch.toNat, some []⟩
    | _ => none
  validDigest _ := true
  before _ _ := true
  digest
    | [_, sha] => some (decimal sha.toNat)
    | _ => none
  shippedRoot _ := some ()
  shippedSnapshot _ := some [1, 0]
  shipped_first := by
    rintro d raw root payload p ⟨⟩ ⟨⟩ ⟨⟩
    rfl

def reviewerOnly : KeyType → Option Unit
  | .reviewer => some ()
  | _ => none

def loadOf (raw : Bytes) : Load := fun _ => (.contents raw, ⟨false, .done⟩)

/-- The program's own snapshot leaves no mark, so another one of the first epoch is accepted after it. -/
theorem shipped_then_other :
    (loads toyEnv reviewerOnly [] [loadOf [1, 0], loadOf [1, 1]]).accepted.map
      (fun a => (a.snap.trustEpoch, a.snap.payloadSHA256)) = [(1, ['0']), (1, ['1'])] ∧
    ¬(loads toyEnv reviewerOnly [] [loadOf [1, 0], loadOf [1, 1]]).accepted.Pairwise
      fun a b => Follows a.snap b.snap := by
  decide

end AiiOs.PackageFmt.Revocation
