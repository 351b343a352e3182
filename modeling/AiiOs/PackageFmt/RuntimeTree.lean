import AiiOs.CanonicalJson.Strict
import AiiOs.PackageFmt.Tar

/-! internal/packagefmt, runtimetree.go: the inventory of a runtime tree and the extraction
of an archive under the digest of its inventory. The gzip layer and the hash are given. -/

namespace AiiOs.PackageFmt
open Lib Lib.Json CanonicalJson

def int64 (x : Int) : Int := x.bmod (2 ^ 64)

structure TreeLimits where
  maxInstalledBytes : Int
  maxFiles : Int
  maxFileBytes : Int
  maxCompressedBytes : Int
  maxDepth : Int
  maxInventoryBytes : Int
  deriving DecidableEq, Repr

def defaultTreeLimits : TreeLimits := ⟨2 ^ 30, 32768, 512 * 2 ^ 20, 512 * 2 ^ 20, 24, 16 * 2 ^ 20⟩

def inventoryFile : Bytes := bytesOf "inventory.json"

def memberAllowance (maxFiles : Int) : Int := int64 (maxFiles + maxFiles.tdiv 4)

namespace TreeLimits

def filled (l : TreeLimits) : TreeLimits where
  maxInstalledBytes := if l.maxInstalledBytes ≤ 0 then defaultTreeLimits.maxInstalledBytes
    else l.maxInstalledBytes
  maxFiles := if l.maxFiles ≤ 0 then defaultTreeLimits.maxFiles else l.maxFiles
  maxFileBytes := if l.maxFileBytes ≤ 0 then defaultTreeLimits.maxFileBytes else l.maxFileBytes
  maxCompressedBytes := if l.maxCompressedBytes ≤ 0 then defaultTreeLimits.maxCompressedBytes
    else l.maxCompressedBytes
  maxDepth := if l.maxDepth ≤ 0 then defaultTreeLimits.maxDepth else l.maxDepth
  maxInventoryBytes := if l.maxInventoryBytes ≤ 0 then defaultTreeLimits.maxInventoryBytes
    else l.maxInventoryBytes

def tarLimits (l : TreeLimits) : TarLimits := let members := int64 (memberAllowance l.maxFiles + 2)
  { semanticMembers := members
    nonEndHeaders := int64 (members * 2)
    payloadBytes := int64 (l.maxInstalledBytes + l.maxInventoryBytes)
    tarBytes := int64 (l.maxInstalledBytes + l.maxInventoryBytes + members * 2 * tarBlockBytes +
      members * maxPAXPaddedBytes + members * (tarBlockBytes - 1) + 2 * tarBlockBytes)
    compressedBytes := l.maxCompressedBytes
    firstFile := inventoryFile
    runtimeNames := true }

end TreeLimits

/-! ### The inventory -/

structure InventoryEntry where
  path : Bytes
  size : Int
  sha256 : Bytes
  mode : Bytes
  deriving DecidableEq, Repr

structure Inventory where
  files : List InventoryEntry
  installedBytes : Int
  deriving DecidableEq, Repr

def storeBytes (old : Bytes) : Value → Option Bytes
  | .str s => some (Utf8.encode s)
  | .null => some old
  | _ => none

def InventoryEntry.fields : FieldList InventoryEntry :=
  [("path", field storeBytes (·.path) fun e p => { e with path := p }),
    ("size", field storeInt64 (·.size) fun e n => { e with size := n }),
    ("sha256", field storeBytes (·.sha256) fun e s => { e with sha256 := s }),
    ("mode", field storeBytes (·.mode) fun e m => { e with mode := m })]

def InventoryEntry.zero : InventoryEntry := ⟨[], 0, [], []⟩

def Inventory.fields : FieldList Inventory :=
  [("files", field (storeSlice InventoryEntry.zero (structType true InventoryEntry.fields).value) (·.files)
      fun i fs => { i with files := fs }),
    ("installed_bytes", field storeInt64 (·.installedBytes) fun i n => { i with installedBytes := n })]

def InventoryEntry.exact : Value → Bool :=
  exactObject [("path", exactText), ("size", exactInt64), ("sha256", exactText), ("mode", exactText)]

def Inventory.exact : Value → Bool :=
  exactObject [("files", exactSlice InventoryEntry.exact), ("installed_bytes", exactInt64)]

def decodeInventory (raw : Bytes) : Option Inventory :=
  decodeStrict (structType true Inventory.fields) ⟨[], 0⟩ Inventory.exact raw

def isDigest (s : Bytes) : Bool := s.take 7 = bytesOf "sha256:" && (s.drop 7).length = 64 &&
    (s.drop 7).all fun c => (48 ≤ c && c ≤ 57) || (97 ≤ c && c ≤ 102)

inductive InventoryError
  | decode
  | noFiles
  | tooManyFiles (n : Nat)
  | path (i : Nat) (path : Bytes)
  | segment (i : Nat) (path segment : Bytes)
  | tooDeep (i : Nat) (path : Bytes)
  | listedTwice (i : Nat) (path : Bytes)
  | negativeSize (i : Nat) (size : Int)
  | fileCeiling (i : Nat) (size : Int)
  | sha256 (i : Nat)
  | mode (i : Nat) (mode : Bytes)
  | sum (declared total : Int)
  | installedCeiling (total : Int)
  | memberAllowance (files dirs : Nat)
  deriving DecidableEq, Repr

def checkEntry (limits : TreeLimits) (i : Nat) (seen : List Bytes) (e : InventoryEntry) :
    Except InventoryError Unit :=
  if e.path = [] ∨ e.path = inventoryFile ∨ e.path.head? = some slash ∨ 92 ∈ e.path ∨
    [slash, slash] <:+: e.path then
    .error (.path i e.path)
  else
    match (e.path.splitOn slash).find? fun s =>
        s = [] || s = bytesOf "." || s = bytesOf ".." || componentForbiddenUnder s true with
    | some s => .error (.segment i e.path s)
    | none =>
      if limits.maxDepth < e.path.count slash + 1 then .error (.tooDeep i e.path)
      else if e.path ∈ seen then .error (.listedTwice i e.path)
      else if e.size < 0 then .error (.negativeSize i e.size)
      else if limits.maxFileBytes < e.size then .error (.fileCeiling i e.size)
      else if !isDigest e.sha256 then .error (.sha256 i)
      else if e.mode ≠ bytesOf "file" ∧ e.mode ≠ bytesOf "exec" then .error (.mode i e.mode)
      else .ok ()

def checkEntries (limits : TreeLimits) :
    Nat → List Bytes → Int → List InventoryEntry → Except InventoryError Int
  | _, _, total, [] => .ok total
  | i, seen, total, e :: es => do
    checkEntry limits i seen e
    checkEntries limits (i + 1) (seen ++ [e.path]) (int64 (total + e.size)) es

def slashParents (path : Bytes) : List Bytes :=
  ((List.range path.length).filter fun i => path[i]? = some slash).map path.take

def parseInventory (raw : Bytes) (limits : TreeLimits) : Except InventoryError Inventory :=
  let limits := limits.filled
  match decodeInventory raw with
  | none => .error .decode
  | some inv =>
    if inv.files.length = 0 then .error .noFiles
    else if limits.maxFiles < inv.files.length then .error (.tooManyFiles inv.files.length)
    else do
      let total ← checkEntries limits 0 [] 0 inv.files
      let dirs := (inv.files.flatMap fun e => slashParents e.path).dedup
      if total ≠ inv.installedBytes then .error (.sum inv.installedBytes total)
      else if limits.maxInstalledBytes < total then .error (.installedCeiling total)
      else if memberAllowance limits.maxFiles < inv.files.length + dirs.length then
        .error (.memberAllowance inv.files.length dirs.length)
      else .ok inv

/-! ### The extracted tree -/

inductive Node
  | dir
  | file (bytes : Bytes) (exec : Bool)
  deriving DecidableEq, Repr

/-- What lies under the destination, by relative path. -/
abbrev Tree := Bytes → Option Node

def Tree.empty : Tree := fun _ => none

def Tree.free (t : Tree) (rel : Bytes) : Bool := (t rel).isNone &&
    match TarWalker.parentPath rel with
    | none => true
    | some parent => t parent = some .dir

def Tree.put (t : Tree) (rel : Bytes) (n : Node) : Tree := Function.update t rel (some n)

/-! ### The extraction -/

inductive TreeError
  | digestForm
  | tar (e : TarError)
  | tooDeep (rel : Bytes)
  | beforeInventory (rel : Bytes)
  | mkdir (rel : Bytes)
  | firstFile (rel : Bytes)
  | inventoryCeiling
  | inventoryDigest (got : Bytes)
  | inventory (e : InventoryError)
  | notInInventory (rel : Bytes)
  | twice (rel : Bytes)
  | size (rel : Bytes)
  | fileCeiling (rel : Bytes)
  | mode (rel : Bytes)
  | create (rel : Bytes)
  | digest (rel : Bytes)
  | installedCeiling
  | noInventory
  | missing (paths : List Bytes)
  | installedBytes (declared carried : Int)
  deriving DecidableEq, Repr

structure TreeReport where
  root : Bytes
  files : Nat
  installedBytes : Int
  inventorySHA : Bytes
  inventoryRaw : Bytes
  deriving DecidableEq, Repr

/-- The variables of the loop, with what lies under the destination. -/
structure Extraction where
  rep : TreeReport
  inv : Option Inventory
  seen : List Bytes
  tree : Tree

def Extraction.start : Extraction := ⟨⟨[], 0, 0, [], []⟩, none, [], .empty⟩

def trimPath (pre path : Bytes) : Bytes := if pre.isPrefixOf path then path.drop pre.length else path

section
variable (sha256 : Bytes → Bytes)

def digestOf (bs : Bytes) : Bytes := bytesOf "sha256:" ++ Utf8.encode (hexEncode (sha256 bs))

variable (limits : TreeLimits) (want : Bytes)

def extractInventory (rel : Bytes) (m : TarMember) (x : Extraction) (w : TarWalker) :
    Except TreeError (Extraction × TarWalker) :=
  if rel ≠ inventoryFile then .error (.firstFile rel)
  else if limits.maxInventoryBytes < m.size then .error .inventoryCeiling
  else do
    let (raw, w) ← (w.readPayload limits.tarLimits m).mapError .tar
    if digestOf sha256 raw ≠ want then .error (.inventoryDigest (digestOf sha256 raw))
    else
      match parseInventory raw limits with
      | .error e => .error (.inventory e)
      | .ok inv =>
        .ok ({ x with inv := some inv, rep.inventorySHA := digestOf sha256 raw, rep.inventoryRaw := raw }, w)

def extractFile (inv : Inventory) (rel : Bytes) (m : TarMember) (x : Extraction) (w : TarWalker) :
    Except TreeError (Extraction × TarWalker) :=
  match inv.files.find? fun e => e.path = rel with
  | none => .error (.notInInventory rel)
  | some e =>
    if rel ∈ x.seen then .error (.twice rel)
    else if (m.size : Int) ≠ e.size then .error (.size rel)
    else if limits.maxFileBytes < m.size then .error (.fileCeiling rel)
    else if decide (m.mode = tarModeExecutable) ≠ decide (e.mode = bytesOf "exec") then .error (.mode rel)
    else if !x.tree.free rel then .error (.create rel)
    else do
      let (payload, w) ← (w.readPayload limits.tarLimits m).mapError .tar
      if digestOf sha256 payload ≠ e.sha256 then .error (.digest rel)
      else
        let installed := int64 (x.rep.installedBytes + m.size)
        if limits.maxInstalledBytes < installed then .error .installedCeiling
        else
          .ok ({ x with
            seen := x.seen ++ [rel]
            tree := x.tree.put rel (.file payload (e.mode = bytesOf "exec"))
            rep.files := x.rep.files + 1
            rep.installedBytes := installed }, w)

def extractMember (m : TarMember) (x : Extraction) (w : TarWalker) :
    Except TreeError (Extraction × TarWalker) :=
  if x.rep.root = [] then .ok ({ x with rep.root := m.path }, w)
  else
    let rel := trimPath (x.rep.root ++ [slash]) m.path
    if limits.maxDepth < rel.count slash + 1 then .error (.tooDeep rel)
    else
      match x.inv with
      | none => if m.isDir then .error (.beforeInventory rel)
          else extractInventory sha256 limits want rel m x w
      | some inv =>
        if m.isDir then
          if x.tree.free rel then .ok ({ x with tree := x.tree.put rel .dir }, w) else .error (.mkdir rel)
        else extractFile sha256 limits inv rel m x w

def extractLoop : Nat → Extraction → TarWalker → Except TreeError (Extraction × TarWalker)
  | 0, _, _ => .error (.tar .outOfFuel)
  | fuel + 1, x, w => do
    let (m, w) ← (w.next limits.tarLimits).mapError .tar
    match m with
    | none => .ok (x, w)
    | some m =>
      let (x, w) ← extractMember sha256 limits want m x w
      extractLoop fuel x w

def extractEnd (x : Extraction) : Except TreeError (TreeReport × Tree) := match x.inv with
  | none => .error .noInventory
  | some inv =>
    let missing := (inv.files.map (·.path)).filter (· ∉ x.seen)
    if missing ≠ [] then .error (.missing missing)
    else if inv.installedBytes ≠ x.rep.installedBytes then
      .error (.installedBytes inv.installedBytes x.rep.installedBytes)
    else .ok (x.rep, x.tree)

/-- `ExtractTree` into an empty directory; `inflate` is what the gzip layer makes of an
archive in its canonical envelope. -/
def extractTree (inflate : Bytes → Option Bytes) (archive : Bytes) : Except TreeError (TreeReport × Tree) :=
  let limits := limits.filled
  if !isDigest want then .error .digestForm
  else if limits.tarLimits.compressedBytes < archive.length then .error (.tar .compressedCeiling)
  else
    match inflate archive with
    | none => .error (.tar .notGzip)
    | some stream => do
      let (x, w) ← extractLoop sha256 limits want (stream.length + 1) .start (newTarWalker stream)
      if w.input ≠ [] then .error (.tar .trailingData) else extractEnd x

end

end AiiOs.PackageFmt
