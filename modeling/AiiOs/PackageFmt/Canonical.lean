import AiiOs.PackageFmt.Tar
import AiiOs.Lib.Fold

/-! An accepted stream is the encoding of the members it yields, but for the slashes at
the end of a path that stands in a PAX record. -/

namespace AiiOs.PackageFmt
open Lib List Option

variable {limits : TarLimits} {w w' : TarWalker}

/-! ### The encoding -/

def blockPadding (n : Nat) : Bytes :=
  if n % tarBlockBytes = 0 then [] else List.replicate (tarBlockBytes - n % tarBlockBytes) 0

def paxBlocks (path : Bytes) : Option Bytes := do
  let record ← paxBuildPathRecord path
  let header ← buildTarHeader paxHeaderPath record.length tarModeRegular tarTypePAXLocal
  some (header ++ (record ++ blockPadding record.length))

/-- What stands before the payload of a member whose PAX record, if it has one, holds
the path `raw`. -/
def headerBlocks (raw path : Bytes) (size mode : Nat) (typ : UInt8) : Option Bytes :=
  if tarPathFitsUSTAR path typ then buildTarHeader (tarStoredPath path typ) size mode typ
  else do
    let pax ← paxBlocks raw
    let header ← buildTarHeader paxMemberPlaceholder size mode typ
    some (pax ++ header)

def payloadBlocks (m : TarMember) (payload : Bytes) : Bytes :=
  if m.isDir then [] else payload ++ blockPadding m.size

def encodeStream : List (TarMember × Bytes) → List Bytes → Option Bytes
  | [], _ => some (List.replicate (2 * tarBlockBytes) 0)
  | (m, payload) :: ms, records => do
    let head ← headerBlocks (records.headD []) m.path m.size m.mode m.typ
    let rest ← encodeStream ms (if tarPathFitsUSTAR m.path m.typ then records else records.tail)
    some (head ++ (payloadBlocks m payload ++ rest))

def longPaths (ms : List (TarMember × Bytes)) : List Bytes :=
  (ms.filter fun p => !tarPathFitsUSTAR p.1.path p.1.typ).map fun p => p.1.path

def trailingSlashes (path : Bytes) : Nat := (path.rtakeWhile (· = slash)).length

/-! ### What the walker read -/

namespace TarWalker

variable {n mode : Nat} {bs path : Bytes} {o : Header} {typ : UInt8}

theorem readExact_eq_ok {buf : Bytes} (h : w.readExact limits n = .ok (buf, w')) :
    buf.length = n ∧ w.input = buf ++ w'.input ∧
      w' = { w with input := w'.input, totalOut := w.totalOut + n } := by
  rw [readExact] at h
  split_ifs at h with htar hlen
  cases h
  refine ⟨?_, (take_append_drop n w.input).symm, rfl⟩
  rw [length_take]
  omega

variable {block payload rawName : Bytes} {fuel size : Nat} {m : TarMember}
  {ms : List (TarMember × Bytes)}

theorem isZeroBlock_iff : isZeroBlock block ↔ block = List.replicate block.length 0 := by
  rw [isZeroBlock, eq_replicate_iff]
  simp

theorem any_ne_zero_iff : bs.any (· ≠ 0) = false ↔ bs = List.replicate bs.length 0 := by
  rw [eq_replicate_iff]
  simp

theorem paxBuildPathRecord_of_parse {record : Bytes} (h : paxParsePathRecord record = some path) :
    paxBuildPathRecord path = some record := by
  rw [paxParsePathRecord] at h
  split at h
  · cases h
  rename_i p hd
  simp only at h
  split_ifs at h with h1 h2 h3
  cases h
  exact not_not.mp h3

theorem eq_blockPadding (hlen : bs.length = (blockPadding n).length)
    (hzero : bs = List.replicate bs.length 0) : bs = blockPadding n := by
  rw [hzero, hlen, blockPadding]
  split_ifs <;> simp

theorem consumePAXHeader_eq_ok (h : w.consumePAXHeader limits block rawName size = .ok w') :
    w.pendingPAXPath = [] ∧ ∃ path rest, paxBlocks path = some (block ++ rest) ∧ w.input = rest ++ w'.input ∧
      w' = { w with
        input := w'.input
        totalOut := w'.totalOut
        pendingPAXPath := path
        records := w.records ++ [path] } := by
  rw [consumePAXHeader] at h
  simp only at h
  split_ifs at h with hname hblock hsize hceiling
  obtain ⟨⟨buf, v⟩, hread, h⟩ := bind_eq_ok.mp h
  obtain ⟨hlen, hinput, hv⟩ := readExact_eq_ok hread
  split_ifs at h with hpad
  split at h
  · cases h
  rename_i path hrec
  cases h
  have hsplit : buf = buf.take size ++ buf.drop size := (take_append_drop size buf).symm
  have hle : size ≤ buf.length := by
    rw [hlen]
    simp only [tarBlockBytes]
    omega
  have htake : (buf.take size).length = size := by
    rw [length_take]
    omega
  have hdrop : buf.drop size = blockPadding size := by
    refine eq_blockPadding ?_ (any_ne_zero_iff.mp (Bool.not_eq_true _ ▸ hpad))
    rw [length_drop, hlen, blockPadding]
    split_ifs with h
    · simp only [tarBlockBytes, length_nil] at h ⊢
      omega
    · simp only [tarBlockBytes, length_replicate] at h ⊢
      omega
  rw [not_or, not_not] at hname
  refine ⟨hname.1, path, buf, ?_, hinput, ?_⟩
  · rw [paxBlocks, paxBuildPathRecord_of_parse hrec]
    simp only [htake, bind_eq_bind, bind_some, not_not.mp hblock]
    rw [← hdrop, ← hsplit]
  · rw [hv]

theorem endBlocks_eq_ok (h : w.endBlocks limits = .ok (o, w')) :
    o = .done ∧ w.pendingPAXPath = [] ∧ w.input = List.replicate tarBlockBytes 0 ++ w'.input ∧
      w' = { w with input := w'.input, totalOut := w'.totalOut } := by
  rw [endBlocks] at h
  split_ifs at h with hpending
  obtain ⟨⟨second, v⟩, hread, h⟩ := bind_eq_ok.mp h
  obtain ⟨hlen, hinput, hv⟩ := readExact_eq_ok hread
  simp only at h
  split_ifs at h with hzero htop
  cases h
  rw [Bool.not_eq_true', Bool.not_eq_false] at hzero
  rw [isZeroBlock_iff.mp hzero, hlen] at hinput
  exact ⟨rfl, not_not.mp hpending, hinput, by rw [hv]⟩

theorem resolvePath_eq_ok {n : Bytes × Bytes} {stored : Bytes}
    (h : w.resolvePath limits rawName typ = .ok (n, stored)) :
    ∃ raw, normalizeMemberPathUnder raw w.topLevel limits.runtimeNames = some n ∧
      ((w.pendingPAXPath = [] ∧ stored = tarStoredPath n.1 typ) ∨
        (w.pendingPAXPath = raw ∧ raw ≠ [] ∧ tarPathFitsUSTAR n.1 typ = false ∧
        stored = paxMemberPlaceholder)) := by
  rw [resolvePath] at h
  split_ifs at h with hpending hraw
  · split at h
    · cases h
    rename_i n' hn
    split_ifs at h with hfits
    cases h
    exact ⟨w.pendingPAXPath, hn, .inr ⟨rfl, hpending, Bool.not_eq_true _ ▸ hfits, rfl⟩⟩
  · split at h
    · cases h
    rename_i n' hn
    split_ifs at h with hstored
    cases h
    exact ⟨rawName, hn, .inl ⟨not_not.mp hpending, rfl⟩⟩

theorem memberHeader_eq_ok (h : w.memberHeader limits block rawName size mode typ = .ok (o, w')) :
    ∃ raw path topLevel stored, o = .member ⟨path, size, mode, typ, typ = tarTypeDirectory⟩ ∧
      normalizeMemberPathUnder raw w.topLevel limits.runtimeNames = some (path, topLevel) ∧
      ((w.pendingPAXPath = [] ∧ stored = tarStoredPath path typ) ∨
        (w.pendingPAXPath = raw ∧ raw ≠ [] ∧ tarPathFitsUSTAR path typ = false ∧
        stored = paxMemberPlaceholder)) ∧
      buildTarHeader stored size mode typ = some block ∧
      admitMember limits ⟨path, size, mode, typ, typ = tarTypeDirectory⟩
        { w with topLevel := topLevel, pendingPAXPath := [] } = .ok w' := by
  rw [memberHeader] at h
  split_ifs at h with htyp hdir
  obtain ⟨⟨m, v⟩, hresolve, h⟩ := bind_eq_ok.mp h
  obtain ⟨v', hadmitted, h⟩ := bind_eq_ok.mp h
  cases h
  obtain ⟨⟨⟨path, topLevel⟩, stored⟩, hpath, hresolve⟩ := bind_eq_ok.mp hresolve
  simp only at hresolve
  split_ifs at hresolve with hheader
  cases hresolve
  obtain ⟨raw, hnorm, hstored⟩ := resolvePath_eq_ok hpath
  exact ⟨raw, path, topLevel, stored, rfl, hnorm, hstored, not_not.mp hheader, hadmitted⟩

theorem header_cases (h : w.header limits = .ok (o, w')) :
    ∃ (block : Bytes) (v : TarWalker), block.length = tarBlockBytes ∧ w.input = block ++ v.input ∧
      v = { w with input := v.input, totalOut := v.totalOut, nonEndHeaders := v.nonEndHeaders } ∧
      ((block = List.replicate tarBlockBytes 0 ∧ v.endBlocks limits = .ok (o, w')) ∨
        (o = .pax ∧ ∃ rawName size, v.consumePAXHeader limits block rawName size = .ok w') ∨
        ∃ rawName size mode typ, v.memberHeader limits block rawName size mode typ = .ok (o, w')) := by
  obtain ⟨⟨block, v⟩, hread, h⟩ := bind_eq_ok.mp h
  obtain ⟨hlen, hinput, hv⟩ := readExact_eq_ok hread
  simp only at h
  split at h
  · rename_i hzero
    refine ⟨block, v, hlen, hinput, by rw [hv], .inl ⟨?_, h⟩⟩
    rw [← hlen]
    exact isZeroBlock_iff.mp hzero
  · refine ⟨block, { v with nonEndHeaders := v.nonEndHeaders + 1 }, hlen, hinput, by rw [hv], .inr ?_⟩
    cases hsize : tarParseOctal ((block.drop 124).take 12) with
    | none =>
      rw [hsize] at h
      split_ifs at h
    | some size =>
      cases hmode : tarParseOctal ((block.drop 100).take 8) with
      | none =>
        rw [hsize, hmode] at h
        split_ifs at h
      | some mode =>
        rw [hsize, hmode] at h
        split_ifs at h with hsum hheaders hname hpax
        · change (consumePAXHeader limits block (rawNameOf block) size
            { v with nonEndHeaders := v.nonEndHeaders + 1 }).map _ = _ at h
          obtain ⟨u, hc, hu⟩ := map_eq_ok.mp h
          cases hu
          exact .inl ⟨rfl, _, _, hc⟩
        · exact .inr ⟨_, _, _, _, h⟩

structure Admits (limits : TarLimits) (m : TarMember) (w : TarWalker) : Prop where
  members : (w.seen.length : Int) < limits.semanticMembers
  seen : checkSeen m w.seen = .ok ()
  parent : w.parentExists m.path
  order : w.leading limits m ∨ w.previousMember = [] ∨ bytesLe m.path w.previousMember = false
  top : m.isDir ∨ slash ∈ m.path
  payload : m.isDir ∨ w.payloadBytes + m.size ≤ limits.payloadBytes

/-- The walker behind a member it admits. -/
def withMember (limits : TarLimits) (m : TarMember) (w : TarWalker) : TarWalker := { w with
    previousMember := if w.leading limits m then w.previousMember else m.path
    payloadBytes := if m.isDir then w.payloadBytes else w.payloadBytes + m.size
    seen := w.seen ++ [⟨m.path, m.isDir⟩] }

theorem admitMember_iff :
    w.admitMember limits m = .ok w' ↔ w.Admits limits m ∧ w.withMember limits m = w' := by
  have hpayload : ¬(m.isDir = false ∧ limits.payloadBytes - w.payloadBytes < m.size) ↔
      (m.isDir ∨ w.payloadBytes + m.size ≤ limits.payloadBytes) := by
    rw [not_and_or, Bool.not_eq_false]
    exact or_congr_right (by omega)
  rw [admitMember, ite_error_eq_ok, Int.not_le, bind_eq_ok]
  simp only [ite_error_eq_ok, hpayload, not_and_or, not_not, Bool.not_eq_false, Bool.not_eq_true',
    Bool.not_eq_true, Except.ok.injEq]
  constructor
  · rintro ⟨hmembers, ⟨⟩, hseen, hparent, horder, htop, hbytes, hw'⟩
    exact ⟨⟨hmembers, hseen, hparent, horder, htop, hbytes⟩, hw'⟩
  · rintro ⟨⟨hmembers, hseen, hparent, horder, htop, hbytes⟩, hw'⟩
    exact ⟨hmembers, (), hseen, hparent, horder, htop, hbytes, hw'⟩

theorem header_member (h : w.header limits = .ok (.member m, w')) :
    ∃ block, w.input = block ++ w'.input ∧ w'.pendingPAXPath = [] ∧ w'.records = w.records ∧
      ((w.pendingPAXPath = [] ∧ tarPathFitsUSTAR m.path m.typ ∧
          buildTarHeader (tarStoredPath m.path m.typ) m.size m.mode m.typ = some block) ∨
        (w.pendingPAXPath ≠ [] ∧ tarPathFitsUSTAR m.path m.typ = false ∧
          w.pendingPAXPath.rdropWhile (· = slash) = m.path ∧
          buildTarHeader paxMemberPlaceholder m.size m.mode m.typ = some block)) := by
  obtain ⟨block, v, -, hinput, hv, ⟨-, hend⟩ | ⟨hpax, -⟩ | ⟨rawName, size, mode, typ, hmember⟩⟩ :=
    header_cases h
  · cases (endBlocks_eq_ok hend).1
  · cases hpax
  · obtain ⟨raw, path, top, stored, hm, hnorm, hstored, hbuild, hadmitted⟩ := memberHeader_eq_ok hmember
    obtain ⟨-, rfl⟩ := admitMember_iff.mp hadmitted
    have hpending : v.pendingPAXPath = w.pendingPAXPath := by rw [hv]
    have hrecords : v.records = w.records := by rw [hv]
    cases hm
    refine ⟨block, hinput, rfl, hrecords, ?_⟩
    rw [← hpending]
    rcases hstored with ⟨hnone, rfl⟩ | ⟨rfl, hne, hfits, rfl⟩
    · obtain ⟨split, hsplit, -⟩ := bind_eq_some_iff.mp hbuild
      exact .inl ⟨hnone, by rw [tarPathFitsUSTAR, hsplit]; rfl, hbuild⟩
    · rw [normalizeMemberPathUnder] at hnorm
      simp only at hnorm
      split_ifs at hnorm
      obtain ⟨top', -, hpath⟩ := map_eq_some_iff.mp hnorm
      exact .inr ⟨hne, hfits, congrArg Prod.fst hpath, hbuild⟩

theorem header_pax (h : w.header limits = .ok (.pax, w')) :
    w.pendingPAXPath = [] ∧ ∃ path blocks, paxBlocks path = some blocks ∧ w.input = blocks ++
      w'.input ∧ path ≠ [] ∧
      w' = { w with input := w'.input, totalOut := w'.totalOut, nonEndHeaders := w'.nonEndHeaders,
                    pendingPAXPath := path, records := w.records ++ [path] } := by
  obtain ⟨block, v, -, hinput, hv, ⟨-, hend⟩ | ⟨-, rawName, size, hpax⟩ | ⟨_, _, _, _, hmember⟩⟩ :=
    header_cases h
  · cases (endBlocks_eq_ok hend).1
  · obtain ⟨hpending, path, rest, hblocks, hrest, hw'⟩ := consumePAXHeader_eq_ok hpax
    refine ⟨by rw [← hpending, hv], path, block ++ rest, hblocks, ?_, ?_, by rw [hw', hv]⟩
    · rw [hinput, hrest, append_assoc]
    · rintro rfl
      simp [paxBlocks, paxBuildPathRecord] at hblocks
  · obtain ⟨_, _, _, _, hm, -⟩ := memberHeader_eq_ok hmember
    cases hm

theorem header_done (h : w.header limits = .ok (.done, w')) :
    w.pendingPAXPath = [] ∧ w.input = List.replicate (2 * tarBlockBytes) 0 ++ w'.input ∧
      w'.records = w.records := by
  obtain ⟨block, v, -, hinput, hv, ⟨hzero, hend⟩ | ⟨hpax, -⟩ | ⟨_, _, _, _, hmember⟩⟩ := header_cases h
  · obtain ⟨-, hpending, hsecond, hw'⟩ := endBlocks_eq_ok hend
    refine ⟨by rw [← hpending, hv], ?_, by rw [hw', hv]⟩
    rw [hinput, hzero, hsecond, ← append_assoc, replicate_append_replicate, two_mul]
  · cases hpax
  · obtain ⟨_, _, _, _, hm, -⟩ := memberHeader_eq_ok hmember
    cases hm

theorem next_none (h : w.next limits = .ok (none, w')) :
    w.input = List.replicate (2 * tarBlockBytes) 0 ++ w'.input ∧ w'.records = w.records := by
  obtain ⟨⟨o, v⟩, hfirst, h⟩ := bind_eq_ok.mp h
  cases o with
  | done =>
    cases h
    exact (header_done hfirst).2
  | member m => cases h
  | pax =>
    obtain ⟨⟨o, v'⟩, hsecond, h⟩ := bind_eq_ok.mp h
    cases o with
    | done =>
      -- the end is refused while a path is pending
      obtain ⟨-, path, -, -, -, hne, hv⟩ := header_pax hfirst
      rw [hv] at hsecond
      exact absurd (header_done hsecond).1 hne
    | member m => cases h
    | pax => cases h

theorem next_some (h : w.next limits = .ok (some m, w')) (hw : w.pendingPAXPath = []) :
    w'.pendingPAXPath = [] ∧ ∃ raw blocks, headerBlocks raw m.path m.size m.mode m.typ = some blocks ∧
      w.input = blocks ++ w'.input ∧
      ((tarPathFitsUSTAR m.path m.typ ∧ w'.records = w.records) ∨
        (tarPathFitsUSTAR m.path m.typ = false ∧ w'.records = w.records ++ [raw] ∧
          raw.rdropWhile (· = slash) = m.path)) := by
  obtain ⟨⟨o, v⟩, hfirst, h⟩ := bind_eq_ok.mp h
  cases o with
  | done => cases h
  | member m' =>
    cases h
    obtain ⟨block, hinput, hpending, hrecords, ⟨-, hfits, hbuild⟩ | ⟨hne, -⟩⟩ := header_member hfirst
    · exact ⟨hpending, [], block, by rw [headerBlocks, if_pos hfits, hbuild], hinput, .inl ⟨hfits, hrecords⟩⟩
    · exact absurd hw hne
  | pax =>
    obtain ⟨⟨o, v'⟩, hsecond, h⟩ := bind_eq_ok.mp h
    cases o with
    | done => cases h
    | pax => cases h
    | member m' =>
      cases h
      obtain ⟨-, path, blocks, hblocks, hrest, hne, hv⟩ := header_pax hfirst
      have hpath : v.pendingPAXPath = path := by rw [hv]
      have hrecords : v.records = w.records ++ [path] := by rw [hv]
      obtain ⟨block, hinput, hpending, hsame, ⟨hnone, -⟩ | ⟨-, hfits, htrim, hbuild⟩⟩ := header_member hsecond
      · exact absurd (hpath ▸ hnone) hne
      · refine ⟨hpending, path, blocks ++ block, ?_, ?_, .inr ⟨hfits, by rw [hsame, hrecords], hpath ▸ htrim⟩⟩
        · rw [headerBlocks, hfits, hblocks, hbuild]
          rfl
        · rw [hrest, hinput, append_assoc]

theorem readPieces_eq_ok {remaining : Nat} (h : readPieces limits fuel remaining w = .ok (payload, w')) :
    payload.length = remaining ∧ w.input = payload ++ w'.input ∧
      w' = { w with input := w'.input, totalOut := w'.totalOut } := by
  induction fuel generalizing remaining w payload with
  | zero =>
    cases remaining with
    | zero =>
      cases h
      exact ⟨rfl, rfl, rfl⟩
    | succ remaining =>
      rw [readPieces] at h
      · cases h
      · simp
  | succ fuel ih =>
    cases remaining with
    | zero =>
      cases h
      exact ⟨rfl, rfl, rfl⟩
    | succ remaining =>
      rw [readPieces] at h
      · obtain ⟨⟨buf, v⟩, hread, h⟩ := bind_eq_ok.mp h
        obtain ⟨⟨rest, v'⟩, hrest, h⟩ := bind_eq_ok.mp h
        cases h
        obtain ⟨hlen, hinput, hv⟩ := readExact_eq_ok hread
        obtain ⟨hlen', hinput', hv'⟩ := ih hrest
        refine ⟨?_, ?_, by rw [hv', hv]⟩
        · rw [length_append]
          omega
        · rw [hinput, hinput', append_assoc]
      · simp

theorem readPayload_eq_ok (h : w.readPayload limits m = .ok (payload, w')) :
    w.input = payload ++ blockPadding m.size ++ w'.input ∧
      w' = { w with input := w'.input, totalOut := w'.totalOut } := by
  obtain ⟨⟨bytes, v⟩, hread, h⟩ := bind_eq_ok.mp h
  obtain ⟨-, hinput, hv⟩ := readPieces_eq_ok hread
  simp only at h
  split_ifs at h with hmod
  · cases h
    rw [blockPadding, if_pos hmod, append_nil]
    exact ⟨hinput, hv⟩
  · obtain ⟨⟨padding, v'⟩, hpad, h⟩ := bind_eq_ok.mp h
    obtain ⟨hlen, hinput', hv'⟩ := readExact_eq_ok hpad
    split_ifs at h with hzero
    cases h
    have hpadding : padding = blockPadding m.size := by
      refine eq_blockPadding ?_ (any_ne_zero_iff.mp (Bool.not_eq_true _ ▸ hzero))
      rw [hlen, blockPadding, if_neg hmod, length_replicate]
    refine ⟨?_, by rw [hv', hv]⟩
    rw [hinput, hinput', hpadding, append_assoc]

theorem walkFuel_eq : walkFuel limits (fuel + 1) w = w.next limits >>= fun n =>
    match n.1 with
    | none => if n.2.input = [] then .ok ([], n.2) else .error .trailingData
    | some m => (if m.isDir then .ok ([], n.2) else n.2.readPayload limits m) >>= fun p =>
      walkFuel limits fuel p.2 >>= fun r => .ok ((m, p.1) :: r.1, r.2) := by
  rw [walkFuel]
  congr 1
  funext ⟨o, v⟩
  cases o with
  | none => rfl
  | some m => cases hdir : m.isDir <;> simp only [hdir] <;> rfl

theorem walkFuel_succ (h : walkFuel limits (fuel + 1) w = .ok (ms, w')) :
    (ms = [] ∧ w.next limits = .ok (none, w') ∧ w'.input = []) ∨
      ∃ m v payload u ms', ms = (m, payload) :: ms' ∧ w.next limits = .ok (some m, v) ∧
        (if m.isDir then .ok ([], v) else v.readPayload limits m) = .ok (payload, u) ∧
        walkFuel limits fuel u = .ok (ms', w') := by
  rw [walkFuel_eq] at h
  obtain ⟨⟨o, v⟩, hnext, h⟩ := bind_eq_ok.mp h
  cases o with
  | none =>
    split_ifs at h with hinput
    cases h
    exact .inl ⟨rfl, hnext, hinput⟩
  | some m =>
    obtain ⟨⟨payload, u⟩, hread, h⟩ := bind_eq_ok.mp h
    obtain ⟨⟨ms', u'⟩, hrest, h⟩ := bind_eq_ok.mp h
    cases h
    exact .inr ⟨m, v, payload, u, ms', rfl, hnext, hread, hrest⟩

/-- The stream is the encoding of the members it yields with the paths of the PAX records
that were read, and those paths are the ones that need a record. -/
theorem walkFuel_eq_ok (h : walkFuel limits fuel w = .ok (ms, w')) (hw : w.pendingPAXPath = []) :
    ∃ records, w'.records = w.records ++ records ∧ encodeStream ms records = some w.input ∧
      records.map (List.rdropWhile (· = slash)) = longPaths ms := by
  induction fuel generalizing w ms with
  | zero => cases h
  | succ fuel ih =>
    obtain ⟨rfl, hnext, hinput⟩ | ⟨m, v, payload, u, ms', rfl, hnext, hpayload, hrest⟩ := walkFuel_succ h
    · obtain ⟨hzeros, hrecords⟩ := next_none hnext
      rw [hinput, append_nil] at hzeros
      exact ⟨[], by rw [hrecords, append_nil], by rw [encodeStream, hzeros], rfl⟩
    obtain ⟨hpending, raw, blocks, hblocks, hinput, hraw⟩ := next_some hnext hw
    have hread : v.input = payloadBlocks m payload ++ u.input ∧ u.records = v.records ∧
        u.pendingPAXPath = [] := by
      rw [payloadBlocks]
      split_ifs at hpayload ⊢
      · cases hpayload
        exact ⟨rfl, rfl, hpending⟩
      · obtain ⟨hbytes, hu⟩ := readPayload_eq_ok hpayload
        exact ⟨hbytes, by rw [hu], by rw [hu, ← hpending]⟩
    obtain ⟨hbytes, hsame, hu⟩ := hread
    obtain ⟨records, hrecords, hencode, hpaths⟩ := ih hrest hu
    -- a path that fits its header writes no extended record
    rcases hraw with ⟨hfits, hr⟩ | ⟨hfits, hr, htrim⟩
    · refine ⟨records, by rw [hrecords, hsame, hr], ?_, ?_⟩
      · have hhead : headerBlocks (records.headD []) m.path m.size m.mode m.typ = some blocks := by
          rw [headerBlocks, if_pos hfits] at hblocks ⊢
          exact hblocks
        rw [encodeStream, hhead, if_pos hfits, hencode, hinput, hbytes]
        rfl
      · rw [hpaths, longPaths, longPaths, filter_cons_of_neg (by simp [hfits])]
    · refine ⟨raw :: records, by rw [hrecords, hsame, hr, append_assoc]; rfl, ?_, ?_⟩
      · rw [encodeStream, headD_cons, hblocks, if_neg (by simp [hfits]), tail_cons, hencode, hinput, hbytes]
        rfl
      · rw [map_cons, htrim, hpaths, longPaths, longPaths, filter_cons_of_pos (by simp [hfits]), map_cons]

end TarWalker

theorem walk_eq_ok {stream : Bytes} {ms : List (TarMember × Bytes)} (h : walk limits stream = .ok (ms, w)) :
    encodeStream ms w.records = some stream ∧ w.records.map (List.rdropWhile (· = slash)) = longPaths ms := by
  obtain ⟨records, hrecords, hencode, hpaths⟩ := TarWalker.walkFuel_eq_ok h rfl
  rw [hrecords]
  exact ⟨hencode, hpaths⟩

theorem eq_of_trailingSlashes {p q : Bytes} (htrim : p.rdropWhile (· = slash) = q.rdropWhile (· = slash))
    (hcount : trailingSlashes p = trailingSlashes q) : p = q := by
  have hslashes (r : Bytes) : r.rtakeWhile (· = slash) = .replicate (trailingSlashes r) slash := by
    refine eq_replicate_iff.mpr ⟨rfl, fun b hb => ?_⟩
    simpa using mem_rtakeWhile_imp hb
  calc p = p.rdropWhile (· = slash) ++ p.rtakeWhile (· = slash) := rdropWhile_append_rtakeWhile.symm
    _ = q.rdropWhile (· = slash) ++ q.rtakeWhile (· = slash) := by rw [htrim, hslashes, hslashes, hcount]
    _ = q := rdropWhile_append_rtakeWhile

/-- Two accepted streams with the same members are the same when the paths in their PAX
records end in the same numbers of slashes. -/
theorem stream_eq_iff {x y : Bytes} {ms : List (TarMember × Bytes)} (hx : walk limits x = .ok (ms, w))
    (hy : walk limits y = .ok (ms, w')) :
    x = y ↔ w.records.map trailingSlashes = w'.records.map trailingSlashes := by
  constructor
  · rintro rfl
    rw [hx] at hy
    cases hy
    rfl
  · intro hcounts
    obtain ⟨hencode, hpaths⟩ := walk_eq_ok hx
    obtain ⟨hencode', hpaths'⟩ := walk_eq_ok hy
    have hinj : Function.Injective fun p : Bytes => (p.rdropWhile (· = slash), trailingSlashes p) := by
      intro p q h
      exact eq_of_trailingSlashes (Prod.mk.inj h).1 (Prod.mk.inj h).2
    have hrecords : w.records = w'.records := by
      refine map_injective_iff.mpr hinj ?_
      rw [← zip_map', ← zip_map', hpaths, hpaths', hcounts]
    rw [hrecords, hencode'] at hencode
    exact (Option.some.inj hencode).symm

def smallLimits : TarLimits := ⟨100, 100, 100000, 100000, 100000, [], false⟩

def longPath : Bytes := bytesOf "r/" ++ List.replicate 101 97

def longMembers : List (TarMember × Bytes) :=
  [(⟨bytesOf "r", 0, tarModeDir, tarTypeDirectory, true⟩, []),
    (⟨longPath, 0, tarModeRegular, tarTypeRegular, false⟩, [])]

/-- The archive of a file with a long path, whose record holds `record`. -/
def longStream (record : Bytes) : Bytes := (encodeStream longMembers [record]).getD []

theorem walk_longStream (record : Bytes) (h : record = longPath ∨ record = longPath ++ [slash]) :
    ∃ w, walk smallLimits (longStream record) = .ok (longMembers, w) := by
  have hrun : (walk smallLimits (longStream record)).map (·.1) = .ok longMembers := by
    rcases h with rfl | rfl <;> decide +kernel
  obtain ⟨⟨ms, w⟩, hw, rfl⟩ := map_eq_ok.mp hrun
  exact ⟨w, hw⟩

theorem same_members_two_streams : ∃ x y ms w w', walk smallLimits x = .ok (ms, w) ∧
    walk smallLimits y = .ok (ms, w') ∧ x ≠ y := by
  obtain ⟨w, hw⟩ := walk_longStream longPath (.inl rfl)
  obtain ⟨w', hw'⟩ := walk_longStream (longPath ++ [slash]) (.inr rfl)
  exact ⟨_, _, _, w, w', hw, hw', by decide +kernel⟩

/-- The two archives of one file differ in the slash of the record. -/
theorem longStream_ne : ∃ w w', walk smallLimits (longStream longPath) = .ok (longMembers, w) ∧
    walk smallLimits (longStream (longPath ++ [slash])) = .ok (longMembers, w') ∧
    (longStream longPath = longStream (longPath ++ [slash]) ↔
      w.records.map trailingSlashes = w'.records.map trailingSlashes) := by
  obtain ⟨w, hw⟩ := walk_longStream longPath (.inl rfl)
  obtain ⟨w', hw'⟩ := walk_longStream (longPath ++ [slash]) (.inr rfl)
  exact ⟨w, w', hw, hw', stream_eq_iff hw hw'⟩

end AiiOs.PackageFmt
