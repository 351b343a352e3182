import AiiOs.Ledger.Codec

/-! internal/ledger: in how many forms a record can be stored. The entry and the payload are
compared with their one form; the object around them is read by a decoder that takes its
members in any order, in any spelling and with spaces between them. -/

namespace AiiOs.Ledger
open Lib Lib.Json AiiOs.CanonicalJson List Option Utf8

/-! ### The wrapper -/

/-- The object `MarshalJSON` writes around an entry and a payload, with a signature unless
that is empty. -/
def wrap (entry payload sig : List Char) : List Char :=
  "\x7b\"entry\":".toList ++ (entry ++ (",\"payload\":".toList ++ (payload ++
    ((if sig = [] then [] else ",\"sig\":".toList ++ encodeString (Utf8.encode sig)) ++ ['}']))))

/-- The line is that object, around some two JSON values. -/
def Wrapped (raw : Bytes) : Prop :=
  ∃ entry payload sig, (∃ v, Text v entry) ∧ (∃ v, Text v payload) ∧
    raw = Utf8.encode (wrap entry payload sig)

variable {entry payload sig : List Char} {ve vp : Value}

def wrapMembers (ve : Value) (entry : List Char) (vp : Value) (payload sig : List Char) : List Member :=
  ⟨"entry".toList, ve, entry⟩ :: ⟨"payload".toList, vp, payload⟩ ::
    if sig = [] then [] else [stringMember "sig" (Utf8.encode sig)]

theorem wrap_eq (ve : Value) (entry : List Char) (vp : Value) (payload sig : List Char) :
    wrap entry payload sig = '{' :: writeFields true (wrapMembers ve entry vp payload sig) := by
  unfold wrap wrapMembers
  split_ifs
  · simp only [writeFields]
    rfl
  · simp only [writeFields, stringMember, append_assoc]
    rfl

theorem wrapMembers_plain : ∀ m ∈ wrapMembers ve entry vp payload sig, PlainKey m.key :=
  forall_signed (by decide : PlainKey "entry".toList) (by decide : PlainKey "payload".toList)
    (by decide : PlainKey "sig".toList)

section
variable (he : Text ve entry) (hp : Text vp payload)
include he hp

theorem wrapMembers_text : ∀ m ∈ wrapMembers ve entry vp payload sig, Text m.value m.raw :=
  forall_signed he hp (str_encodeString _)

theorem document_wrap :
    Document (.obj ((wrapMembers ve entry vp payload sig).map Member.pair)) (wrap entry payload sig) := by
  rw [wrap_eq ve entry vp payload sig]
  exact document_self (text_write wrapMembers_plain (wrapMembers_text he hp))

theorem wireRecord_wrap
    (hdepth : (Value.obj ((wrapMembers ve entry vp payload sig).map Member.pair)).depth ≤ maxNestingDepth) :
    wireRecord.decode ⟨[], [], []⟩ (wrap entry payload sig) = some ⟨entry, payload, sig⟩ := by
  have hd : 1 + membersDepth ((wrapMembers ve entry vp payload sig).map Member.pair) ≤ maxNestingDepth := by
    rw [Nat.add_comm]
    exact hdepth
  rw [wrap_eq ve entry vp payload sig, StructType.decode_write _ _ wrapMembers_plain
    (wrapMembers_text he hp) hd]
  rw [wrapMembers, foldlM_signed, runesText_encode]
  split_ifs with hempty
  · rw [hempty]
  · rfl

end

/-! ### The stored form -/

theorem Decoded.marshalJSON {text : List Char} {v : Value} {w : WireRecord} {en : WireEntry}
    (h : Decoded text v w en) :
    marshalJSON (eventOf w en) = .ok (Utf8.encode (wrap w.entry w.payload w.sig)) := by
  have hbytes : (eventOf w en).payload = Utf8.encode w.payload := rfl
  have hpayload : (eventOf w en).payload ≠ [] := by
    rw [hbytes, ← encode_nil]
    exact encode_injective.ne h.payload_ne
  unfold Ledger.marshalJSON wrap
  have hsig : Utf8.encode w.sig = [] ↔ w.sig = [] := by rw [← encode_nil, encode_injective.eq_iff]
  rw [if_neg hpayload, h.form, hbytes, sigText]
  simp only [eventOf, hsig, encode_append, append_assoc]

/-- A line that is read is written again as it was exactly when the object around its entry
and its payload is the one that is written. -/
theorem decodeEvent_one_form {raw : Bytes} {e : Event} (h : decodeEvent raw = .ok e) :
    marshalJSON e = .ok raw ↔ Wrapped raw := by
  obtain ⟨text, v, w, en, rfl, hd, rfl⟩ := decoded_of_decodeEvent h
  rw [hd.marshalJSON]
  constructor
  · intro hsame
    obtain ⟨ms, rest, hx, -, -, hparts⟩ := hd.members
    obtain ⟨-, r, -, hr, -⟩ := fields_of_readFirst hx
    obtain ⟨a, ha, -, hentry⟩ := hparts.entry.resolve_left hd.entry_ne
    obtain ⟨b, hb, -, hpayload⟩ := hparts.payload.resolve_left hd.payload_ne
    refine ⟨w.entry, w.payload, w.sig, ⟨a.value, ?_⟩, ⟨b.value, ?_⟩, (Except.ok.inj hsame).symm⟩
    · rw [← hentry]
      exact hr.mem_text ha
    · rw [← hpayload]
      exact hr.mem_text hb
  · rintro ⟨entry, payload, sig, ⟨ve, he⟩, ⟨vp, hp⟩, hraw⟩
    obtain rfl := encode_injective hraw
    obtain ⟨hdoc, -, hdepth⟩ := parseDocument_eq_ok.mp hd.doc
    have hv := eq_of_parseDocument hd.doc (@document_wrap _ _ sig _ _ he hp)
    have hw := @wireRecord_wrap _ _ sig _ _ he hp (hv ▸ hdepth)
    rw [hd.record] at hw
    cases hw
    rfl

def reorderedLine : Bytes :=
  bytesOf ("\x7b\"payload\":\x7b\x7d,\"entry\":\x7b\"content\":\"\",\"prev\":\"\",\"ring\":0," ++
    "\"seq\":0,\"ts\":\"\",\"type\":\"\"\x7d\x7d")

def emptyEvent : Event := ⟨0, [], [], [], 0, [], bytesOf "\x7b\x7d", [], false, false, .none⟩

theorem decodeEvent_second_form :
    decodeEvent reorderedLine = .ok emptyEvent ∧ marshalJSON emptyEvent ≠ .ok reorderedLine :=
  ⟨by decide +kernel, by decide +kernel⟩

def signedEvent : Event := { emptyEvent with seq := 7, sig := bytesOf "c2ln" }

/-- The line of this event is read as it and written as it was. -/
theorem decodeEvent_one_form_signed :
    ∃ line, marshalJSON signedEvent = .ok line ∧ decodeEvent line = .ok signedEvent ∧
      (marshalJSON signedEvent = .ok line ↔ Wrapped line) := by
  refine ⟨_, rfl, ?_, ?_⟩
  · decide +kernel
  · exact decodeEvent_one_form (by decide +kernel)

end AiiOs.Ledger
