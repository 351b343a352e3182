import AiiOs.Ledger.Appending
import AiiOs.Store.Admission

/-! internal/ledger, rewrap.go: a ledger is read in the record's shape or in the prior one,
linked and signed again under one key and put in place of the destination, once the new file
verifies and replays. `json.Decoder` on a line of the prior shape, the replay and the signing are
parameters. -/

namespace AiiOs.Ledger.Rewrap
open Lib Lib.Json AiiOs.CanonicalJson List Option Utf8

inductive Stage
  | lockDirectory
  | statDirectories
  | lockOutputDirectory
  | openSource
  | lockSource
  | seekSource
  | createTemp
  | writeTemp
  | syncTemp
  | closeTemp
  | statSource
  | danglingOutput
  | openOutput
  | statOutput
  | closeDuplicate
  | lockOutput
  | closeOutput
  | closeSource
  | replace
  deriving DecidableEq, Repr

inductive OwnerError
  | notGenesis
  | noKey
  | keyEncoding
  | otherKey
  deriving DecidableEq, Repr

inductive RewrapError
  | file (stage : Stage)
  | tooLong
  | malformed (e : EventError)
  | neitherShape
  | notReproduced (seq : Nat)
  | otherHistory (seq : Nat)
  | priorPayload (seq : Nat) (e : PayloadError)
  | modelMismatch (seq : Nat)
  | canonical (seq : Nat) (e : CanonicalError)
  | empty
  | receipt (seq : Nat)
  | owner (e : OwnerError)
  | outOfPlace (i seq : Nat)
  | contentHash (i : Nat)
  | ring (i : Nat)
  | sign (i : Nat)
  | marshal (i : Nat) (e : EventError)
  | notVerified
  | notReplayed
  /-- The destination was replaced, and what follows failed. -/
  | published
  deriving DecidableEq, Repr

def receiptKey : List Char := "receipt".toList

def beforeKey : List Char := "receipt_before_rewrap".toList

section
variable (p : Primitives) (kp : KeyPair) (decodePrior : Bytes → Option PriorShape)

/-! ### Reading -/

def genesis : StructType (List Char) where
  names := ["public_key".toList]
  strict := false
  store s _ m := storeString s m.value

/-- What the file system answers: the step that fails before the destination is replaced, whether a
file made to reserve the destination can be looked at and removed again, and whether all goes well
after the replacement. -/
structure RewrapIo where
  fault : Option Stage
  unreserves : Bool
  confirms : Bool

structure Outcome where
  result : Except RewrapError Nat
  dst : Option Bytes

def reading : List Stage :=
  [.lockDirectory, .statDirectories, .lockOutputDirectory, .openSource, .lockSource, .seekSource]

def reserving : List Stage := [.statSource, .danglingOutput, .openOutput]

/-- From the reservation on. `same`: the destination is the source's file. An empty file is made
where the destination is not there. Where a later step fails it goes again, but not where it is
the look at the new file that fails. -/
def publish (dst : Option Bytes) (same : Bool) (io : RewrapIo) (candidate : Bytes) (n : Nat) : Outcome :=
  match io.fault with
  | some stage =>
    if stage ∈ reserving ∨ same ∨ dst.isSome then ⟨.error (.file stage), dst⟩
    else if stage = .statOutput ∨ io.unreserves = false then ⟨.error (.file stage), some []⟩
    else ⟨.error (.file stage), none⟩
  | none => ⟨if io.confirms then .ok n else .error .published, some candidate⟩

end

/-! ### The records of the source -/

structure SourceRecord where
  seq : Nat
  timestamp : Bytes
  type : Bytes
  ring : Int
  payload : Bytes
  content : Bytes
  prior : Bool
  deriving DecidableEq, Repr

def SourceRecord.Reproduces (sha256 : Bytes → Bytes) (r : SourceRecord) : Prop :=
  contentHash sha256 r.payload = r.content

def SourceRecord.OneReceipt (r : SourceRecord) : Prop :=
  ∃ m, Denotes r.payload (.obj m) ∧ (m receiptKey = none ∨ m beforeKey = none)

def newKey (type : Bytes) (key : List Char) : List Char :=
  if type = eventSystemWitnessed ∧ key = receiptKey then beforeKey else key

/-- No member is lost, none gets the key of another, and none is added. -/
structure Renamed (type : Bytes) (m m' : List Char → Option Data) : Prop where
  kept : ∀ k d, m k = some d → m' (newKey type k) = some d
  apart : ∀ k k', m k ≠ none → m k' ≠ none → newKey type k = newKey type k' → k = k'
  only : ∀ k d, m' k = some d → ∃ k', newKey type k' = k ∧ m k' = some d

structure Same (r : SourceRecord) (e : Event) : Prop where
  seq : e.seq = r.seq
  timestamp : e.timestamp = r.timestamp
  type : e.type = r.type
  ring : e.ring = r.ring

structure Carried (r : SourceRecord) (e : Event) : Prop extends Same r e where
  payload : ∃ m m', Denotes r.payload (.obj m) ∧ Denotes e.payload (.obj m') ∧ Renamed r.type m m'

/-- A witness record of the source that is as the others are checked to be. -/
def SourceRecord.Regular (sha256 : Bytes → Bytes) (r : SourceRecord) : Prop :=
  r.type = eventSystemWitnessed → (r.prior = false → r.Reproduces sha256) ∧ r.OneReceipt

variable {p : Primitives} {kp : KeyPair} {decodePrior : Bytes → Option PriorShape} {e e' : Event}
  {r : SourceRecord} {ms : List (List Char × Value)} {line raw : Bytes} {v : Value}

structure IsObject (payload : Bytes) (ms : List (List Char × Value)) : Prop where
  text : payload = Utf8.encode (emitCanonicalJSONValue (.obj ms))
  inProfile : InProfile (.obj ms)
  depth : (Value.obj ms).depth ≤ maxNestingDepth

structure Sound (e : Event) : Prop where
  unmarked : Unmarked e
  seq : e.seq < 2 ^ 64
  ring : -2 ^ 63 ≤ e.ring ∧ e.ring < 2 ^ 63
  timestamp : ∃ cs, Utf8.encode cs = e.timestamp
  type : ∃ cs, Utf8.encode cs = e.type

theorem IsObject.denotes_iff (h : IsObject raw ms) (d : Data) :
    Denotes raw d ↔ d = .obj (membersData ms) := by
  have htext : Utf8.decode? raw = some (emitCanonicalJSONValue (.obj ms)) := by rw [h.text, decode?_encode]
  rw [CanonicalJson.denotes_iff htext (parseDocument_emit h.inProfile h.depth), data_normalize h.inProfile,
    Value.data]

theorem eq_of_marshalJSON (hs : Sound e) (hp : IsObject e.payload ms)
    (hcontent : ∃ cs, Utf8.encode cs = e.content)
    (hprev : ∃ cs, Utf8.encode cs = e.prev) (hsig : ∃ cs, Utf8.encode cs = e.sig)
    (hline : marshalJSON e = .ok line) (h : decodeEvent line = .ok e') : e' = e := by
  have ht := text_emit hp.inProfile
  rw [marshalJSON_eq ht hp.text] at hline
  cases hline
  obtain ⟨text, v, w, en, htext, hd, rfl⟩ := decoded_of_decodeEvent h
  cases encode_injective htext
  have hdepth := (parseDocument_eq_ok.mp hd.doc).2.2
  obtain rfl := eq_of_parseDocument hd.doc (document_record ht)
  have hdn : (CanonicalJson.normalize (.obj ms)).depth + 1 ≤ maxNestingDepth := by
    rw [Value.depth, recordMembers_depth] at hdepth
    omega
  have hw := hd.record
  rw [wireRecord_recordText ht hdn] at hw
  cases hw
  have hen := hd.entry
  rw [wireEntry_entryText hs.seq hs.ring] at hen
  cases hen
  have hback : ∀ {s : Bytes}, (∃ cs, Utf8.encode cs = s) → Utf8.encode (runesText s) = s := by
    rintro _ ⟨cs, rfl⟩
    rw [runesText_encode]
  have hsigned : Utf8.encode (if e.sig = [] then [] else runesText e.sig) = e.sig := by
    split_ifs with hnil
    · rw [hnil, encode_nil]
    · exact hback hsig
  simp only [eventOf, hback hcontent, hback hprev, hback hs.timestamp, hback hs.type, hsigned, ← hp.text]
  exact hs.unmarked.eq_mk

/-! ### Reading -/

variable {ep : Event × Bool} {i n : Nat} {es : List (Event × Bool)} {s : Event × Bytes}
  {dst : Option Bytes} {same : Bool} {io : RewrapIo} {candidate : Bytes}

variable {m : List Char → Option Data}

structure Prepared (r : SourceRecord) (e : Event) : Prop extends Same r e where
  sound : Sound e
  object : ∃ m ms, Denotes r.payload (.obj m) ∧ IsObject e.payload ms ∧ Renamed r.type m (membersData ms)

def Signed (ep : Event × Bool) (s : Event × Bytes) : Prop :=
  ∃ prev sig, s.1 = { ep.1 with prev := Utf8.encode prev, sig := Utf8.encode sig } ∧ marshalJSON s.1 = .ok s.2

variable {out : List (Event × Bytes)}

def Made (p : Primitives) (r : SourceRecord) (s : Event × Bytes) : Prop :=
  r.Reproduces p.sha256 ∧ ∃ ep, Prepared r ep.1 ∧
    contentHash p.sha256 ep.1.payload = ep.1.content ∧ Signed ep s

theorem Made.carried (h : Made p r s) (hdecode : decodeEvent s.2 = .ok e) : Carried r e := by
  obtain ⟨-, ep, hprepared, hcontent, prev, sig, hs, hline⟩ := h
  obtain ⟨m, ms, hdenotes, hobject, hrenamed⟩ := hprepared.object
  have hsound := hprepared.sound
  rw [hs] at hline
  obtain rfl := eq_of_marshalJSON (e := { ep.1 with prev := Utf8.encode prev, sig := Utf8.encode sig })
    ⟨hsound.unmarked, hsound.seq, hsound.ring, hsound.timestamp, hsound.type⟩ hobject ⟨_, hcontent⟩
    ⟨_, rfl⟩ ⟨_, rfl⟩ hline hdecode
  exact ⟨⟨hprepared.seq, hprepared.timestamp, hprepared.type, hprepared.ring⟩, m, _, hdenotes,
    (hobject.denotes_iff _).mpr rfl, hrenamed⟩

theorem Carried.regular {sha256 : Bytes → Bytes} (h : Carried r e) (hrep : r.Reproduces sha256) :
    r.Regular sha256 := by
  intro htype
  obtain ⟨m, _, hm, -, hrenamed⟩ := h.payload
  refine ⟨fun _ => hrep, m, hm, ?_⟩
  by_contra hboth
  obtain ⟨hreceipt, hbefore⟩ := not_or.mp hboth
  have hsame := hrenamed.apart receiptKey beforeKey hreceipt hbefore (by rw [htype]; decide)
  exact absurd hsame (by decide)

/-! ### The destination -/

end AiiOs.Ledger.Rewrap
