import AiiOs.Lib.Bytes
import AiiOs.Lib.Text
import Mathlib

/-! internal/packagefmt, tar.go: the headers a package archive is written with and the
walker that takes an archive apart again. The gzip layer below it is the list of bytes
it decompresses to. -/

namespace AiiOs.PackageFmt
open Lib List

def tarBlockBytes : Nat := 512

def maxComponentBytes : Nat := 255

def maxMemberPathBytes : Nat := 511

def maxPAXRecordBytes : Nat := 521

def maxPAXPaddedBytes : Nat := 1024

def tarTypeRegular : UInt8 := 48

def tarTypeRegularLegacy : UInt8 := 0

def tarTypeDirectory : UInt8 := 53

def tarTypePAXLocal : UInt8 := 120

def tarModeDir : Nat := 0o755

def tarModeRegular : Nat := 0o644

def tarModeExecutable : Nat := 0o755

def paxHeaderPath : Bytes := bytesOf "PaxHeaders/aiiospkg"

def paxMemberPlaceholder : Bytes := bytesOf "PaxPayload/aiiospkg"

def slash : UInt8 := 47

structure TarLimits where
  semanticMembers : Int
  nonEndHeaders : Int
  payloadBytes : Int
  tarBytes : Int
  compressedBytes : Int
  firstFile : Bytes
  runtimeNames : Bool
  deriving DecidableEq, Repr

inductive TarError
  | compressedCeiling
  | notGzip
  | tarCeiling
  | truncated
  | trailingData
  | paxWithoutMember
  | singleZeroBlock
  | emptyArchive
  | checksum
  | tooManyHeaders
  | noName
  | memberSize
  | memberMode
  | paxHeaderName
  | paxHeaderBlock
  | paxEmpty
  | paxCeiling
  | paxPadding
  | paxRecord
  | typeOrMode
  | directorySize
  | placeholder
  | memberPath
  | paxForShortPath
  | storedForm
  | memberHeader
  | tooManyMembers
  | duplicate
  | fileAncestor
  | noParent
  | order
  | topLevelFile
  | payloadCeiling
  | payloadPadding
  | outOfFuel
  deriving DecidableEq, Repr

/-! ### Fields of a header -/

def tarFieldString (field : Bytes) : Bytes := field.takeWhile (· ≠ 0)

def octalLoop : Nat → Bool → Bytes → Option (Nat × Bool)
  | value, sawDigit, [] => some (value, sawDigit)
  | value, sawDigit, c :: cs =>
    if c = 0 ∨ c = 32 then octalLoop value sawDigit cs
    else if c < 48 ∨ 55 < c then none
    else if 2 ^ 62 / 8 < value then none
    else octalLoop (value * 8 + (c.toNat - 48)) true cs

def tarParseOctal (field : Bytes) : Option Nat := match field with
  | [] => none
  | c :: _ =>
    if c &&& 0x80 ≠ 0 then none
    else
      match octalLoop 0 false field with
      | some (value, true) => some value
      | _ => none

def byteSum (bs : Bytes) : Nat := (bs.map UInt8.toNat).sum

def tarVerifyChecksum (block : Bytes) : Bool := match tarParseOctal ((block.drop 148).take 8) with
  | none => false
  | some expected => byteSum (block.take 148) + 8 * 32 + byteSum (block.drop 156) = expected

/-- The last slash at which the path goes into a prefix and a name. -/
def splitLoop (path : Bytes) : Nat → Option (Bytes × Bytes)
  | 0 => none
  | split + 1 =>
    if path[split + 1]? = some slash ∧ split + 1 ≤ 155 ∧ 0 < path.length - (split + 1) - 1 ∧
        path.length - (split + 1) - 1 ≤ 100 then
      some (path.drop (split + 2), path.take (split + 1))
    else splitLoop path split

section
variable (path : Bytes)

def tarSplitPath : Option (Bytes × Bytes) :=
  if path.length = 0 ∨ maxMemberPathBytes < path.length then none
  else if path.length ≤ 100 then some (path, [])
  else splitLoop path (path.length - 1)

def tarStoredPath (typ : UInt8) : Bytes := if typ = tarTypeDirectory then path ++ [slash] else path

def tarPathFitsUSTAR (typ : UInt8) : Bool := (tarSplitPath (tarStoredPath path typ)).isSome

def octalFuel : Nat → Nat → Bytes
  | 0, n => [UInt8.ofNat (48 + n % 8)]
  | f + 1, n => if n < 8 then [UInt8.ofNat (48 + n)] else octalFuel f (n / 8) ++ [UInt8.ofNat (48 + n % 8)]

/-- `strconv.FormatInt(n, 8)`. -/
def octal (n : Nat) : Bytes := octalFuel n n

def writeOctal (field : Nat) (value : Nat) : Option Bytes := let s := octal value
  if field - 1 < s.length then none else some (replicate (field - 1 - s.length) 48 ++ s ++ [0])

/-- `copy` to the start of a field of zeros. -/
def zeroPadded (width : Nat) (bs : Bytes) : Bytes := bs ++ replicate (width - bs.length) 0

def headerStart (name mode size : Bytes) : Bytes :=
  zeroPadded 100 name ++ mode ++ (bytesOf "0000000" ++ [0]) ++ (bytesOf "0000000" ++ [0]) ++ size ++
    (bytesOf "00000000000" ++ [0])

def headerEnd (pre : Bytes) (typ : UInt8) : Bytes :=
  [typ] ++ replicate 100 0 ++ (bytesOf "ustar" ++ [0]) ++ bytesOf "00" ++ replicate 80 0 ++
    zeroPadded 155 pre ++ replicate 12 0

def buildTarHeader (storedPath : Bytes) (size mode : Nat) (typ : UInt8) : Option Bytes := do
  let (name, pre) ← tarSplitPath storedPath
  let mode ← writeOctal 8 (mode % 0o1000)
  let size ← writeOctal 12 size
  let chk := octal (byteSum (headerStart name mode size) + 8 * 32 + byteSum (headerEnd pre typ))
  if 6 < chk.length then none
  else
    some (headerStart name mode size ++ (replicate (6 - chk.length) 48 ++ chk ++ [0, 32]) ++
      headerEnd pre typ)

/-! ### Paths -/

def asciiLower (b : UInt8) : UInt8 := if 65 ≤ b ∧ b ≤ 90 then b + 32 else b

def componentMatchesWindowsDeviceStem (component : Bytes) : Bool :=
  let lower := (component.takeWhile (· ≠ 46)).map asciiLower
  lower ∈ [bytesOf "con", bytesOf "prn", bytesOf "aux", bytesOf "nul"] ||
    (lower.length = 4 && (lower.take 3 = bytesOf "com" || lower.take 3 = bytesOf "lpt") &&
      lower.getLast?.any fun c => 49 ≤ c && c ≤ 57)

def componentByte (runtimeNames : Bool) (c : UInt8) : Bool :=
  (65 ≤ c && c ≤ 90) || (97 ≤ c && c ≤ 122) || (48 ≤ c && c ≤ 57) || c = 46 || c = 95 || c = 43 || c = 45 ||
    (runtimeNames && (c = 32 || c = 40 || c = 41))

def componentForbiddenUnder (component : Bytes) (runtimeNames : Bool) : Bool :=
  component.length = 0 || maxComponentBytes < component.length ||
    component = bytesOf "." || component = bytesOf ".." ||
    component.getLast? = some 46 || componentMatchesWindowsDeviceStem component ||
    (runtimeNames && (component.head? = some 32 || component.getLast? = some 32)) ||
    component.any fun c => !componentByte runtimeNames c

def normalizeComponents (runtimeNames : Bool) : Bool → Bytes → List Bytes → Option Bytes
  | _, topLevel, [] => some topLevel
  | first, topLevel, c :: cs =>
    if componentForbiddenUnder c runtimeNames then none
    else if first then
      if topLevel = [] then normalizeComponents runtimeNames false c cs
      else if topLevel ≠ c then none
      else normalizeComponents runtimeNames false topLevel cs
    else normalizeComponents runtimeNames false topLevel cs

def normalizeMemberPathUnder (raw topLevel : Bytes) (runtimeNames : Bool) : Option (Bytes × Bytes) :=
  if raw.length = 0 ∨ maxMemberPathBytes < raw.length then none
  else if raw.head? = some slash ∨ raw.head? = some 92 then none
  else
    let normalized := raw.rdropWhile (· = slash)
    if normalized = [] then none
    else (normalizeComponents runtimeNames true topLevel (normalized.splitOn slash)).map fun top =>
      (normalized, top)

def pathIsExactAncestor (ancestor path : Bytes) : Bool :=
  ancestor.isPrefixOf path && decide (ancestor.length < path.length) && path[ancestor.length]? = some slash

/-- The loop over the components of two paths, up to the first that differ. -/
def siblingCollision : List Bytes → List Bytes → Bool
  | lc :: ls, rc :: rs =>
    if lc.length ≠ rc.length then false
    else if lc.map asciiLower ≠ rc.map asciiLower then false
    else if lc ≠ rc then true
    else siblingCollision ls rs
  | _, _ => false

def pathsCasefoldSiblingCollision (left right : Bytes) : Bool :=
  siblingCollision (left.splitOn slash) (right.splitOn slash)

/-! ### PAX records -/

def itoa (n : Nat) : Bytes := (decimal n).map fun c => UInt8.ofNat c.toNat

/-- The length of a record, which is written in the record: it is tried with one digit
more until it fits. -/
def recordTotal (pathLength : Nat) : Nat → Nat → Nat
  | 0, digits => pathLength + 7 + digits
  | f + 1, digits =>
    let total := pathLength + 7 + digits
    if (itoa total).length = digits then total else recordTotal pathLength f (itoa total).length

def paxBuildPathRecord : Option Bytes :=
  if path.length = 0 ∨ maxMemberPathBytes < path.length then none
  else
    let total := recordTotal path.length 3 1
    if maxPAXRecordBytes < total then none
    else
      let record := itoa total ++ bytesOf " path=" ++ path ++ [10]
      if record.length ≠ total then none else some record

end

/-- The declared length in front of the first space, with the number of its digits. -/
def declaredLoop : Nat → Nat → Bytes → Option (Nat × Nat)
  | declared, space, [] => some (declared, space)
  | declared, space, b :: bs =>
    if b = 32 then some (declared, space)
    else if b < 48 ∨ 57 < b ∨ (space = 0 ∧ b = 48) then none
    else if 2 ^ 31 / 10 < declared then none
    else declaredLoop (declared * 10 + (b.toNat - 48)) (space + 1) bs

def paxParsePathRecord (record : Bytes) : Option Bytes := match declaredLoop 0 0 record with
  | none => none
  | some (declared, space) =>
    if space = 0 ∨ record.length < space + 6 + 1 ∨ declared ≠ record.length ∨
        (record.drop space).take 6 ≠ bytesOf " path=" ∨ record.getLast? ≠ some 10 then none
    else
      let value := (record.drop (space + 6)).dropLast
      if value.length = 0 ∨ maxMemberPathBytes < value.length then none
      else if paxBuildPathRecord value ≠ some record then none
      else some value

/-! ### The walker -/

structure TarMember where
  path : Bytes
  size : Nat
  mode : Nat
  typ : UInt8
  isDir : Bool
  deriving DecidableEq, Repr

structure SeenEntry where
  path : Bytes
  isDir : Bool
  deriving DecidableEq, Repr

structure TarWalker where
  /-- What is left of the decompressed stream. -/
  input : Bytes
  totalOut : Nat
  seen : List SeenEntry
  topLevel : Bytes
  previousMember : Bytes
  pendingPAXPath : Bytes
  nonEndHeaders : Nat
  payloadBytes : Nat
  /-- The paths of the PAX records that were read. -/
  records : List Bytes
  deriving DecidableEq, Repr

def newTarWalker (input : Bytes) : TarWalker := ⟨input, 0, [], [], [], [], 0, 0, []⟩

namespace TarWalker
variable (limits : TarLimits)

def readExact (n : Nat) (w : TarWalker) : Except TarError (Bytes × TarWalker) :=
  if limits.tarBytes < w.totalOut + n then .error .tarCeiling
  else if w.input.length < n then .error .truncated
  else .ok (w.input.take n, { w with input := w.input.drop n, totalOut := w.totalOut + n })

def isZeroBlock (block : Bytes) : Bool := block.all (· = 0)

def tarModeIsCanonical (typ : UInt8) (mode : Nat) : Bool := if 0o777 < mode then false
  else if typ = tarTypeDirectory then mode = tarModeDir
  else if typ = tarTypeRegular ∨ typ = tarTypeRegularLegacy then mode = tarModeRegular ∨
    mode = tarModeExecutable
  else false

def consumePAXHeader (block rawName : Bytes) (size : Nat) (w : TarWalker) : Except TarError TarWalker :=
  let padded := (size + tarBlockBytes - 1) / tarBlockBytes * tarBlockBytes
  if w.pendingPAXPath ≠ [] ∨ rawName ≠ paxHeaderPath then .error .paxHeaderName
  else if buildTarHeader paxHeaderPath size tarModeRegular tarTypePAXLocal ≠
    some block then .error .paxHeaderBlock
  else if size = 0 then .error .paxEmpty
  else if maxPAXPaddedBytes < padded then .error .paxCeiling
  else do
    let (buf, w) ← w.readExact limits padded
    if (buf.drop size).any (· ≠ 0) then .error .paxPadding
    else
      match paxParsePathRecord (buf.take size) with
      | none => .error .paxRecord
      | some path => .ok { w with pendingPAXPath := path, records := w.records ++ [path] }

/-- The member's path and the new top-level directory, and the path its header holds. -/
def resolvePath (rawName : Bytes) (typ : UInt8) (w : TarWalker) : Except TarError ((Bytes × Bytes) × Bytes) :=
  if w.pendingPAXPath ≠ [] then
    if rawName ≠ paxMemberPlaceholder then .error .placeholder
    else
      match normalizeMemberPathUnder w.pendingPAXPath w.topLevel limits.runtimeNames with
      | none => .error .memberPath
      | some n => if tarPathFitsUSTAR n.1 typ then .error .paxForShortPath else .ok (n, paxMemberPlaceholder)
  else
    match normalizeMemberPathUnder rawName w.topLevel limits.runtimeNames with
    | none => .error .memberPath
    | some n =>
      if rawName ≠ tarStoredPath n.1 typ then .error .storedForm else .ok (n, tarStoredPath n.1 typ)

def resolveMember (block rawName : Bytes) (size mode : Nat) (typ : UInt8) (w : TarWalker) :
    Except TarError (TarMember × TarWalker) := do
  let ((path, topLevel), expectedStored) ← w.resolvePath limits rawName typ
  if buildTarHeader expectedStored size mode typ ≠ some block then .error .memberHeader
  else
    .ok (⟨path, size, mode, typ, typ = tarTypeDirectory⟩,
      { w with topLevel := topLevel, pendingPAXPath := [] })

def parentPath (path : Bytes) : Option Bytes :=
  if slash ∈ path then some (path.rdropWhile (· ≠ slash)).dropLast else none

def parentExists (path : Bytes) (w : TarWalker) : Bool := match parentPath path with
  | none => w.seen.isEmpty
  | some parent => w.seen.any fun e => e.isDir && e.path = parent

def checkSeen (m : TarMember) : List SeenEntry → Except TarError Unit
  | [] => .ok ()
  | e :: es =>
    if e.path = m.path ∨ pathsCasefoldSiblingCollision e.path m.path then .error .duplicate
    else if (e.isDir = false ∧ pathIsExactAncestor e.path m.path) ∨
        (m.isDir = false ∧ pathIsExactAncestor m.path e.path) then .error .fileAncestor
    else checkSeen m es

section
variable (m : TarMember) (w : TarWalker)

/-- Whether the member is the file that stands before the order. -/
def leading : Bool := match w.seen with
  | [e] => limits.firstFile ≠ [] && !m.isDir && m.path = e.path ++ [slash] ++ limits.firstFile
  | _ => false

def admitMember : Except TarError TarWalker :=
  if limits.semanticMembers ≤ w.seen.length then .error .tooManyMembers
  else do
    checkSeen m w.seen
    if !w.parentExists m.path then .error .noParent
    else if w.leading limits m = false ∧ w.previousMember ≠ [] ∧
      bytesLe m.path w.previousMember then .error .order
    else if m.isDir = false ∧ slash ∉ m.path then .error .topLevelFile
    else if m.isDir = false ∧ limits.payloadBytes - w.payloadBytes < m.size then .error .payloadCeiling
    else
      .ok { w with
        previousMember := if w.leading limits m then w.previousMember else m.path
        payloadBytes := if m.isDir then w.payloadBytes else w.payloadBytes + m.size
        seen := w.seen ++ [⟨m.path, m.isDir⟩] }

inductive Header
  | pax
  | member (m : TarMember)
  | done
  deriving DecidableEq, Repr

def endBlocks (w : TarWalker) : Except TarError (Header × TarWalker) :=
  if w.pendingPAXPath ≠ [] then .error .paxWithoutMember
  else do
    let (second, w) ← w.readExact limits tarBlockBytes
    if !isZeroBlock second then .error .singleZeroBlock
    else if w.topLevel = [] then .error .emptyArchive
    else .ok (.done, w)

def rawNameOf (block : Bytes) : Bytes := let pre := tarFieldString ((block.drop 345).take 155)
  if pre ≠ [] then pre ++ [slash] ++ tarFieldString (block.take 100) else tarFieldString (block.take 100)

def memberHeader (block rawName : Bytes) (size mode : Nat) (typ : UInt8) (w : TarWalker) :
    Except TarError (Header × TarWalker) :=
  if !tarModeIsCanonical typ mode ∨ typ = tarTypeRegularLegacy then .error .typeOrMode
  else if typ = tarTypeDirectory ∧ size ≠ 0 then .error .directorySize
  else do
    let (m, w) ← w.resolveMember limits block rawName size mode typ
    let w ← w.admitMember limits m
    .ok (.member m, w)

/-- One turn of the loop of `next`. -/
def header (w : TarWalker) : Except TarError (Header × TarWalker) := do
  let (block, w) ← w.readExact limits tarBlockBytes
  if isZeroBlock block then w.endBlocks limits
  else if !tarVerifyChecksum block then .error .checksum
  else if limits.nonEndHeaders < w.nonEndHeaders + 1 then .error .tooManyHeaders
  else
    let w := { w with nonEndHeaders := w.nonEndHeaders + 1 }
    let rawName := rawNameOf block
    let typ := (block[156]?).getD 0
    if rawName = [] then .error .noName
    else
      match tarParseOctal ((block.drop 124).take 12) with
      | none => .error .memberSize
      | some size =>
        match tarParseOctal ((block.drop 100).take 8) with
        | none => .error .memberMode
        | some mode =>
          if typ = tarTypePAXLocal then (w.consumePAXHeader limits block rawName size).map fun w => (.pax, w)
          else w.memberHeader limits block rawName size mode typ

/-- The next member, or none at the end. Behind a PAX header another one is refused, so
the loop turns at most twice. -/
def next (w : TarWalker) : Except TarError (Option TarMember × TarWalker) := do
  let (h, w) ← w.header limits
  match h with
  | .done => .ok (none, w)
  | .member m => .ok (some m, w)
  | .pax =>
    let (h, w) ← w.header limits
    match h with
    | .done => .ok (none, w)
    | .member m => .ok (some m, w)
    | .pax => .error .outOfFuel

/-- The payload in pieces of at most 8192 bytes. -/
def readPieces : Nat → Nat → TarWalker → Except TarError (Bytes × TarWalker)
  | _, 0, w => .ok ([], w)
  | 0, _, _ => .error .outOfFuel
  | fuel + 1, remaining, w => do
    let n := min remaining 8192
    let (buf, w) ← w.readExact limits n
    let (rest, w) ← readPieces fuel (remaining - n) w
    .ok (buf ++ rest, w)

def readPayload : Except TarError (Bytes × TarWalker) := do
  let (payload, w) ← readPieces limits m.size m.size w
  if m.size % tarBlockBytes = 0 then .ok (payload, w)
  else
    let (padding, w) ← w.readExact limits (tarBlockBytes - m.size % tarBlockBytes)
    if padding.any (· ≠ 0) then .error .payloadPadding else .ok (payload, w)

end

/-- The members with their payloads, to the end of the stream. Each turn reads a header,
so fuel beyond the input is never used up. -/
def walkFuel : Nat → TarWalker → Except TarError (List (TarMember × Bytes) × TarWalker)
  | 0, _ => .error .outOfFuel
  | fuel + 1, w => do
    let (m, w) ← w.next limits
    match m with
    | none => if w.input = [] then .ok ([], w) else .error .trailingData
    | some m =>
      let (payload, w) ← if m.isDir then .ok ([], w) else w.readPayload limits m
      let (ms, w) ← walkFuel fuel w
      .ok ((m, payload) :: ms, w)

end TarWalker

def walk (limits : TarLimits) (stream : Bytes) : Except TarError (List (TarMember × Bytes) × TarWalker) :=
  (newTarWalker stream).walkFuel limits (stream.length + 1)

end AiiOs.PackageFmt
