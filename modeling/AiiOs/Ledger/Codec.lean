import AiiOs.Ledger.Event
import AiiOs.CanonicalJson.NormalForm
import AiiOs.Lib.Scan

/-! The stored form of an event is read back as the event, and a line that is
read gives an event that can be stored. -/

namespace AiiOs.Ledger
open Lib Lib.Json AiiOs.CanonicalJson List Option Utf8

def PlainString (s : Bytes) : Prop := ∃ cs, Utf8.encode cs = s ∧ '\x00' ∉ cs

def StoredPayload (p : Bytes) : Prop :=
  ∃ ms, p = Utf8.encode (emitCanonicalJSONValue (.obj ms)) ∧ InProfile (.obj ms) ∧
    (Value.obj ms).depth + 1 ≤ maxNestingDepth

structure Storable (e : Event) : Prop where
  seq : e.seq < 2 ^ 64
  ring : -2 ^ 63 ≤ e.ring ∧ e.ring < 2 ^ 63
  content : PlainString e.content
  prev : PlainString e.prev
  timestamp : PlainString e.timestamp
  type : PlainString e.type
  sig : PlainString e.sig
  payload : StoredPayload e.payload

def Unmarked (e : Event) : Prop := e.sealed = false ∧ e.closing = false ∧ e.container = .none

variable {e : Event} {v : Value} {t : List Char} {ms : List Member} {raw : Bytes} {w : WireRecord}

theorem Unmarked.eq_mk (h : Unmarked e) :
    ⟨e.seq, e.prev, e.timestamp, e.type, e.ring, e.content, e.payload, e.sig, false, false, .none⟩ = e := by
  obtain ⟨h1, h2, h3⟩ := h
  cases e
  simp only at h1 h2 h3
  rw [h1, h2, h3]

/-! ### The entry -/

def runesText (s : Bytes) : List Char := (Utf8.runes s).map fun r => r.getD (Char.ofNat 0xFFFD)

def stringMember (key : String) (s : Bytes) : Member := ⟨key.toList, .str (runesText s), encodeString s⟩

def entryMembers (e : Event) : List Member :=
  [stringMember "content" e.content, stringMember "prev" e.prev,
    ⟨"ring".toList, .num (decimalInt e.ring), decimalInt e.ring⟩,
    ⟨"seq".toList, .num (decimal e.seq), decimal e.seq⟩,
    stringMember "ts" e.timestamp, stringMember "type" e.type]

theorem entryText_eq (e : Event) : entryText e = '{' :: writeFields true (entryMembers e) := by
  rfl

theorem entryMembers_plain (e : Event) : ∀ m ∈ entryMembers e, PlainKey m.key := by
  simp only [entryMembers, stringMember, forall_mem_cons]
  exact ⟨by decide, by decide, by decide, by decide, by decide, by decide, by simp⟩

theorem entryMembers_text (e : Event) : ∀ m ∈ entryMembers e, Text m.value m.raw := by
  simp only [entryMembers, stringMember, forall_mem_cons]
  exact ⟨str_encodeString _, str_encodeString _, ⟨rfl, number_decimalInt _⟩,
    ⟨rfl, number_decimal _⟩, str_encodeString _, str_encodeString _, by simp⟩

theorem runesText_encode (cs : List Char) : runesText (Utf8.encode cs) = cs := by
  rw [runesText, runes_encode, List.map_map]
  exact map_id'' (fun _ => rfl) cs

variable {s : Bytes} {m : Member} {en : WireEntry} {text : List Char}

theorem encode_runesText (h : PlainString s) : Utf8.encode (runesText s) = s := by
  obtain ⟨cs, rfl, -⟩ := h
  rw [runesText_encode]

theorem wireEntry_entryText (hs : e.seq < 2 ^ 64) (hr : -2 ^ 63 ≤ e.ring ∧ e.ring < 2 ^ 63) :
    wireEntry.decode ⟨[], [], 0, 0, [], []⟩ (entryText e) =
      some ⟨runesText e.content, runesText e.prev, e.ring, e.seq, runesText e.timestamp,
      runesText e.type⟩ := by
  rw [entryText_eq, StructType.decode_write _ _ (entryMembers_plain e) (entryMembers_text e)
    (Nat.le_of_ble_eq_true rfl)]
  have hring : ∀ w, wireEntry.step w ⟨"ring".toList, .num (decimalInt e.ring), decimalInt e.ring⟩ =
      some { w with ring := e.ring } := fun w => by
    change (storeInt64 w.ring _).map _ = _
    simp only [storeInt64, intOfLiteral_decimalInt, if_pos hr, map_some]
  have hseq : ∀ w, wireEntry.step w ⟨"seq".toList, .num (decimal e.seq), decimal e.seq⟩ =
      some { w with seq := e.seq } := fun w => by
    change (storeUint64 w.seq _).map _ = _
    simp only [storeUint64, all_digits_decimal, natOfDigits_decimal, hs, and_self, if_true, map_some]
  have hcontent : ∀ w, wireEntry.step w (stringMember "content" e.content) =
      some { w with content := runesText e.content } := fun _ => rfl
  have hprev : ∀ w, wireEntry.step w (stringMember "prev" e.prev) =
      some { w with prev := runesText e.prev } := fun _ => rfl
  have hts : ∀ w, wireEntry.step w (stringMember "ts" e.timestamp) =
      some { w with ts := runesText e.timestamp } := fun _ => rfl
  have htype : ∀ w, wireEntry.step w (stringMember "type" e.type) =
      some { w with type := runesText e.type } := fun _ => rfl
  simp only [entryMembers, foldlM_cons, foldlM_nil, hring, hseq, hcontent, hprev, hts, htype,
    bind_eq_bind, bind_some]
  rfl

theorem no_exponent {ds : List Char} (h : ∀ c ∈ ds, c.isDigit ∨ c = '-') :
    ds.any (fun c => c == 'e' || c == 'E' || c == '+') = false := by
  refine List.any_eq_false.mpr fun c hc => ?_
  rcases h c hc with hd | rfl
  · have h1 := digit_ne hd (d := 'e') (by decide)
    have h2 := digit_ne hd (d := 'E') (by decide)
    have h3 := digit_ne hd (d := '+') (by decide)
    simp [h1, h2, h3]
  · decide

theorem canonicalFraction_digits {c : Char} {cs : List Char} (hc : c.isDigit) (h0 : c ≠ '0')
    (hcs : ∀ d ∈ cs, d.isDigit) (negative : Bool) :
    (if c = '0' then
        if (cs.head?.map Char.isDigit).getD false then false
        else canonicalFraction negative ['0'] cs
      else if c.isDigit then
        canonicalFraction negative (c :: (spanDigits cs).1) (spanDigits cs).2
      else false) = true := by
  have hspan := @spanDigits_complete cs [] hcs (fun _ _ h => nomatch h)
  rw [append_nil] at hspan
  rw [if_neg h0, if_pos hc, hspan]
  simp [canonicalFraction, h0]

theorem canonicalJSONNumber_decimal (n : Nat) : canonicalJSONNumber (decimal n) := by
  by_cases hn : n = 0
  · subst hn
    decide
  · obtain ⟨c, cs, he, hc, h0⟩ := decimalFuel_head n n (Nat.le_refl n) hn
    have hd := decimal_digits n
    have hm := decimal_head_ne_minus (n := n) he
    rw [decimal, he] at hd ⊢
    have hexp := no_exponent fun d hd' => .inl (hd d hd')
    have hsign : scanSign (c :: cs) = ([], c :: cs) := by rw [scanSign, if_neg hm]
    unfold canonicalJSONNumber
    rw [if_neg (by simp [hexp]), hsign]
    exact canonicalFraction_digits hc h0 (forall_mem_cons.mp hd).2 _

theorem canonicalJSONNumber_decimalInt (i : Int) : canonicalJSONNumber (decimalInt i) := by
  unfold decimalInt
  split_ifs with hi
  · obtain ⟨c, cs, he, hc, h0⟩ := decimalFuel_head i.natAbs i.natAbs (Nat.le_refl _) (by omega)
    have hd := decimal_digits i.natAbs
    rw [decimal, he] at hd ⊢
    have hexp := no_exponent (forall_mem_cons.mpr ⟨.inr (rfl : '-' = '-'), fun d hd' => .inl (hd d hd')⟩)
    have hsign : scanSign ('-' :: c :: cs) = (['-'], c :: cs) := by rw [scanSign, if_pos rfl]
    unfold canonicalJSONNumber
    rw [if_neg (by simp [hexp]), hsign]
    exact canonicalFraction_digits hc h0 (forall_mem_cons.mp hd).2 _
  · exact canonicalJSONNumber_decimal _

theorem nul_notMem_runesText (h : PlainString s) : '\x00' ∉ runesText s := by
  obtain ⟨cs, rfl, hcs⟩ := h
  rwa [runesText_encode]

theorem entry_inProfile (h : Storable e) : InProfile (.obj ((entryMembers e).map Member.pair)) := by
  refine ⟨(by decide : ["content".toList, "prev".toList, "ring".toList, "seq".toList, "ts".toList,
    "type".toList].Nodup), ?_⟩
  exact ⟨nul_notMem_runesText h.content, nul_notMem_runesText h.prev,
    canonicalJSONNumber_decimalInt _, canonicalJSONNumber_decimal _,
    nul_notMem_runesText h.timestamp, nul_notMem_runesText h.type, trivial⟩

/-! ### The record -/

def recordMembers (e : Event) (v : Value) (t : List Char) : List Member :=
  ⟨"entry".toList, .obj ((entryMembers e).map Member.pair), entryText e⟩ ::
    ⟨"payload".toList, v, t⟩ :: if e.sig = [] then [] else [stringMember "sig" e.sig]

def recordText (e : Event) (v : Value) (t : List Char) : List Char :=
  '{' :: writeFields true (recordMembers e v t)

theorem marshalJSON_eq (ht : Text v t) (hp : e.payload = Utf8.encode t) :
    marshalJSON e = .ok (Utf8.encode (recordText e v t)) := by
  have hne : e.payload ≠ [] := by
    obtain ⟨c, cs, rfl, -⟩ := text_head ht
    rw [hp, encode_cons]
    exact append_ne_nil_of_left_ne_nil (utf8EncodeChar_ne_nil c) _
  have htext : recordText e v t = "\x7b\"entry\":".toList ++ (entryText e ++ ",\"payload\":".toList) ++
      (t ++ (sigText e ++ ['}'])) := by
    unfold recordText recordMembers sigText
    split_ifs
    · simp only [writeFields, append_assoc, nil_append]
      rfl
    · simp only [writeFields, append_assoc, stringMember]
      rfl
  rw [marshalJSON, if_neg hne, htext, hp]
  simp only [encode_append, append_assoc]

theorem forall_signed {P : Member → Prop} {a b : Member} {c : Prop} [Decidable c] (ha : P a) (hb : P b)
    (hs : P (stringMember "sig" s)) : ∀ m ∈ a :: b :: if c then [] else [stringMember "sig" s], P m := by
  split_ifs <;> simp [ha, hb, hs]

theorem recordMembers_plain (e : Event) (v : Value) (t : List Char) :
    ∀ m ∈ recordMembers e v t, PlainKey m.key :=
  forall_signed (by decide : PlainKey "entry".toList) (by decide : PlainKey "payload".toList)
    (by decide : PlainKey "sig".toList)

theorem recordMembers_text (ht : Text v t) : ∀ m ∈ recordMembers e v t, Text m.value m.raw :=
  forall_signed (entryText_eq e ▸ text_write (entryMembers_plain e) (entryMembers_text e)) ht
    (str_encodeString _)

theorem recordMembers_depth (e : Event) (v : Value) (t : List Char) :
    membersDepth ((recordMembers e v t).map Member.pair) = max 1 v.depth := by
  unfold recordMembers
  split_ifs <;> simp [membersDepth, Member.pair, Value.depth, entryMembers, stringMember]

theorem record_inProfile (h : Storable e) (hv : InProfile v) (t : List Char) :
    InProfile (.obj ((recordMembers e v t).map Member.pair)) := by
  have hentry := entry_inProfile h
  have hsig := nul_notMem_runesText h.sig
  unfold recordMembers
  split_ifs
  · exact ⟨(by decide : ["entry".toList, "payload".toList].Nodup), hentry, hv, trivial⟩
  · exact ⟨(by decide : ["entry".toList, "payload".toList, "sig".toList].Nodup), hentry, hv, hsig, trivial⟩

theorem compact_writeFields (hk : ∀ m ∈ ms, PlainKey m.key) (ht : ∀ m ∈ ms, Compact m.raw) (first : Bool) :
    Compact (writeFields first ms) := by
  induction ms generalizing first with
  | nil => exact .plain (by decide) (by decide) .nil
  | cons m ms ih =>
    rw [forall_mem_cons] at hk ht
    have hkey : Compact ('"' :: (m.key ++ ['"'])) :=
      .literal (body_plain hk.1) (List.forall_mem_map.mpr fun _ _ => trivial) .nil
    exact (compact_separator first).append
      (hkey.append (.plain (by decide) (by decide) (ht.1.append (ih hk.2 ht.2 false))))

theorem compact_entry (e : Event) : Compact (entryText e) := by
  rw [entryText_eq]
  refine .plain (by decide) (by decide) (compact_writeFields (entryMembers_plain e) ?_ true)
  simp only [entryMembers, stringMember, forall_mem_cons]
  exact ⟨compact_encodeString _, compact_encodeString _,
    compact_of_ne (number_plain (number_decimalInt _)),
    compact_of_ne (number_plain (number_decimal _)), compact_encodeString _,
    compact_encodeString _, by simp⟩

theorem compact_record (e : Event) (v : Value) (ht : Compact t) : Compact (recordText e v t) := by
  refine .plain (by decide) (by decide) (compact_writeFields (recordMembers_plain e v t) ?_ true)
  exact forall_signed (compact_entry e) ht (compact_encodeString _)

theorem document_record (ht : Text v t) :
    Document (.obj ((recordMembers e v t).map Member.pair)) (recordText e v t) :=
  ⟨[], _, [], ws_nil, text_write (recordMembers_plain e v t) (recordMembers_text ht), ws_nil,
    by simp [recordText]⟩

theorem foldlM_signed {x y : Value} {entry payload : List Char} {c : Prop} [Decidable c] :
    (⟨"entry".toList, x, entry⟩ :: ⟨"payload".toList, y, payload⟩ ::
      if c then [] else [stringMember "sig" s]).foldlM wireRecord.step ⟨[], [], []⟩ =
    some ⟨entry, payload, if c then [] else runesText s⟩ := by
  split_ifs <;> rfl

theorem wireRecord_recordText (ht : Text v t) (hd : v.depth + 1 ≤ maxNestingDepth) :
    wireRecord.decode ⟨[], [], []⟩ (recordText e v t) =
      some ⟨entryText e, t, if e.sig = [] then [] else runesText e.sig⟩ := by
  have hdepth : 1 + membersDepth ((recordMembers e v t).map Member.pair) ≤ maxNestingDepth := by
    rw [recordMembers_depth]
    have : 2 ≤ maxNestingDepth := by decide
    omega
  rw [recordText, StructType.decode_write _ _ (recordMembers_plain e v t) (recordMembers_text ht) hdepth]
  exact foldlM_signed

theorem canonicalizeV1_of_document {x : List Char} (hd : Document v x) (hp : InProfile v)
    (hv : v.depth ≤ maxNestingDepth) (he : Compact x) : ∃ c, canonicalizeV1 (Utf8.encode x) = .ok c := by
  have hparse := parseDocument_eq_ok.mpr ⟨hd, hp, hv⟩
  refine ⟨Utf8.encode (emitCanonicalJSONValue v), ?_⟩
  simp only [canonicalizeV1, decode?_encode, escapes_compact he, hparse]

theorem depth_normalize_eq_obj {ms : List (List Char × Value)}
    (h : (Value.obj ms).depth + 1 ≤ maxNestingDepth) : (normalize (.obj ms)).depth + 1 ≤ maxNestingDepth :=
  (Nat.succ_le_succ (depth_normalize_le _)).trans h

theorem decodeEvent_marshalJSON (h : Storable e) (hu : Unmarked e) :
    ∃ line, marshalJSON e = .ok line ∧ decodeEvent line = .ok e := by
  obtain ⟨ms, hp, hprof, hd⟩ := h.payload
  have ht := text_emit hprof
  have hdn := depth_normalize_eq_obj hd
  refine ⟨_, marshalJSON_eq ht hp, ?_⟩
  obtain ⟨c, hc⟩ :=
    canonicalizeV1_of_document (document_record (e := e) ht) (record_inProfile h hprof.normalize _) (by
      simp only [Value.depth, recordMembers_depth]
      have : 2 ≤ maxNestingDepth := by decide
      omega) (compact_record e _ (compact_emit hprof))
  have hentry : eventOf ⟨entryText e, emitCanonicalJSONValue (.obj ms),
      if e.sig = [] then [] else runesText e.sig⟩
      ⟨runesText e.content, runesText e.prev, e.ring, e.seq, runesText e.timestamp,
          runesText e.type⟩ = e := by
    have hsig : Utf8.encode (if e.sig = [] then [] else runesText e.sig) = e.sig := by
      split_ifs with hs
      · rw [hs, encode_nil]
      · exact encode_runesText h.sig
    simp only [eventOf, encode_runesText h.content, encode_runesText h.prev,
      encode_runesText h.timestamp, encode_runesText h.type, hsig, ← hp]
    exact hu.eq_mk
  have hcanon : canonicalizeV1 (Utf8.encode (emitCanonicalJSONValue (.obj ms))) = _ :=
    canonicalizeV1_emit hprof (Nat.le_of_succ_le hd)
  have hhead : (emitCanonicalJSONValue (.obj ms)).head? = some '{' := by
    rw [emitCanonicalJSONValue]
    rfl
  have hne : ¬ (entryText e = [] ∨ emitCanonicalJSONValue (.obj ms) = []) := by
    rintro (h0 | h0)
    · rw [entryText_eq] at h0
      cases h0
    · rw [h0] at hhead
      cases hhead
  simp only [decodeEvent, hc, decode?_encode, unmarshalJSON, wireRecord_recordText ht hdn,
    if_neg hne, wireEntry_entryText h.seq h.ring, hentry, ne_eq, not_true_eq_false, if_false, hhead,
    hcanon]

/-! ### What was read can be stored -/

/-- Everything `decodeEvent` has checked about an event it returns. -/
structure Decoded (text : List Char) (v : Value) (w : WireRecord) (en : WireEntry) : Prop where
  doc : parseDocument text = .ok v
  record : wireRecord.decode ⟨[], [], []⟩ text = some w
  entry : wireEntry.decode ⟨[], [], 0, 0, [], []⟩ w.entry = some en
  entry_ne : w.entry ≠ []
  payload_ne : w.payload ≠ []
  form : entryText (eventOf w en) = w.entry
  object : w.payload.head? = some '{'
  canonical : canonicalizeV1 (Utf8.encode w.payload) = .ok (Utf8.encode w.payload)

theorem decoded_of_decodeEvent (h : decodeEvent raw = .ok e) :
    ∃ text v w en, Utf8.encode text = raw ∧ Decoded text v w en ∧ e = eventOf w en := by
  unfold decodeEvent at h
  split at h
  · cases h
  · rename_i c hc
    obtain ⟨text, v, htext, hv, -⟩ := canonicalizeV1_eq_ok hc
    simp only [htext] at h
    unfold unmarshalJSON at h
    split at h
    · cases h
    · rename_i w hw
      split at h
      · cases h
      rename_i hne
      split at h
      · cases h
      · rename_i en hen
        split_ifs at h with hform hobj
        split at h
        · cases h
        · rename_i c' hc'
          split_ifs at h with hpay
          cases h
          rw [not_or] at hne
          rw [not_not] at hform hobj hpay
          exact ⟨text, v, w, en, encode_of_decodeFuel htext,
            ⟨hv, hw, hen, hne.1, hne.2, hform, hobj, hpay ▸ hc'⟩, rfl⟩

def FromMember (ms : List Member) (name raw : List Char) : Prop :=
  ∃ m ∈ ms, fieldOf wireRecord.names m.key = some name ∧ m.raw = raw

theorem wireRecord_step {w' : WireRecord} (hm : m ∈ ms) (h : wireRecord.step w m = some w') :
    (FromMember ms "entry".toList w'.entry ∧ w'.payload = w.payload ∧ w'.sig = w.sig) ∨
    (FromMember ms "payload".toList w'.payload ∧ w'.entry = w.entry ∧ w'.sig = w.sig) ∨
    ((w'.sig = w.sig ∨ m.value = .str w'.sig) ∧ w'.entry = w.entry ∧ w'.payload = w.payload) := by
  unfold StructType.step at h
  split at h
  · rename_i name hname
    dsimp only [wireRecord] at h
    split_ifs at h with h1 h2
    · cases h
      exact .inl ⟨⟨m, hm, h1 ▸ hname, rfl⟩, rfl, rfl⟩
    · cases h
      exact .inr (.inl ⟨⟨m, hm, h2 ▸ hname, rfl⟩, rfl, rfl⟩)
    · obtain ⟨s, hs, rfl⟩ := map_eq_some_iff.mp h
      exact .inr (.inr ⟨storeString_eq_some hs, rfl, rfl⟩)
  · cases h

structure RecordParts (ms : List Member) (w : WireRecord) : Prop where
  entry : w.entry = [] ∨ FromMember ms "entry".toList w.entry
  payload : w.payload = [] ∨ FromMember ms "payload".toList w.payload
  sig : w.sig = [] ∨ ∃ m ∈ ms, m.value = .str w.sig

theorem recordParts (h : ms.foldlM wireRecord.step ⟨[], [], []⟩ = some w) : RecordParts ms w := by
  refine foldlM_invariant h ⟨.inl rfl, .inl rfl, .inl rfl⟩ fun w m w' hm hw hstep => ?_
  rcases wireRecord_step hm hstep with ⟨he, hp, hs⟩ | ⟨hp, he, hs⟩ | ⟨hs, he, hp⟩
  · exact ⟨.inr he, hp ▸ hw.payload, hs ▸ hw.sig⟩
  · exact ⟨he ▸ hw.entry, .inr hp, hs ▸ hw.sig⟩
  · refine ⟨he ▸ hw.entry, hp ▸ hw.payload, ?_⟩
    rcases hs with hs | hs
    · exact hs ▸ hw.sig
    · exact .inr ⟨m, hm, hs⟩

structure EntryValues (en : WireEntry) : Prop where
  content : '\x00' ∉ en.content
  prev : '\x00' ∉ en.prev
  ring : -2 ^ 63 ≤ en.ring ∧ en.ring < 2 ^ 63
  seq : en.seq < 2 ^ 64
  ts : '\x00' ∉ en.ts
  type : '\x00' ∉ en.type

theorem storeString_nul {old s : List Char} (h : storeString old v = some s) (hold : '\x00' ∉ old)
    (hv : InProfile v) : '\x00' ∉ s := by
  rcases storeString_eq_some h with rfl | rfl
  · exact hold
  · exact hv

theorem entryValues (hms : ∀ m ∈ ms, InProfile m.value)
    (h : ms.foldlM wireEntry.step ⟨[], [], 0, 0, [], []⟩ = some en) : EntryValues en := by
  refine foldlM_invariant h ⟨by simp, by simp, by decide, by decide, by simp, by simp⟩
    fun w m w' hm hw hstep => ?_
  have hv := hms m hm
  unfold StructType.step at hstep
  split at hstep
  · rename_i name _
    dsimp only [wireEntry] at hstep
    split_ifs at hstep <;> obtain ⟨x, hx, rfl⟩ := map_eq_some_iff.mp hstep
    · exact { hw with content := storeString_nul hx hw.content hv }
    · exact { hw with prev := storeString_nul hx hw.prev hv }
    · exact { hw with ring := storeInt64_range hx hw.ring }
    · exact { hw with seq := storeUint64_lt hx hw.seq }
    · exact { hw with ts := storeString_nul hx hw.ts hv }
    · exact { hw with type := storeString_nul hx hw.type hv }
  · cases hstep

theorem document_self (h : Text v t) : Document v t := ⟨[], t, [], ws_nil, h, ws_nil, by simp⟩

theorem mem_inProfile (h : InProfile (.obj (ms.map Member.pair))) (hm : m ∈ ms) : InProfile m.value :=
  membersInProfile_iff.mp h.2 _ (List.mem_map_of_mem hm)

theorem mem_depth {n : Nat} (h : (Value.obj (ms.map Member.pair)).depth ≤ n) (hm : m ∈ ms) :
    m.value.depth + 1 ≤ n :=
  (Nat.succ_le_succ (membersDepth_le.mp (Nat.le_refl _) _ (List.mem_map_of_mem hm))).trans h

theorem Decoded.members (h : Decoded text v w en) :
    ∃ ms rest, readFirst text = some (.inr ms, rest) ∧ Ws rest ∧ v = .obj (ms.map Member.pair) ∧
      RecordParts ms w := by
  obtain ⟨hdoc, -, hdepth⟩ := parseDocument_eq_ok.mp h.doc
  rcases StructType.decode_eq_some h.record with rfl | ⟨ms, rest, hx, hfold⟩
  · exact absurd rfl h.entry_ne
  · obtain ⟨hv, hrest⟩ := document_fields hdoc hdepth hx
    exact ⟨ms, rest, hx, hrest, hv, recordParts hfold⟩

theorem storable_of_decoded (h : Decoded text v w en) : Storable (eventOf w en) := by
  obtain ⟨ms, rest, hx, hrest, rfl, hparts⟩ := h.members
  obtain ⟨-, hprof, hdepth⟩ := parseDocument_eq_ok.mp h.doc
  obtain ⟨-, r, -, hr, -⟩ := fields_of_readFirst hx
  have hen : EntryValues en := by
    obtain ⟨m, hm, -, hraw⟩ := hparts.entry.resolve_left h.entry_ne
    rcases StructType.decode_eq_some h.entry with rfl | ⟨ms', rest', hx', hfold⟩
    · exact ⟨by simp, by simp, by decide, by decide, by simp, by simp⟩
    · refine entryValues (fun m' hm' => ?_) hfold
      have ht := hr.mem_text hm
      rw [hraw] at ht
      have hv := (document_fields (document_self ht) ((Nat.le_succ _).trans (mem_depth hdepth hm)) hx').1
      exact mem_inProfile (hv ▸ mem_inProfile hprof hm) hm'
  have hpayload : StoredPayload (Utf8.encode w.payload) := by
    obtain ⟨m, hm, -, hraw⟩ := hparts.payload.resolve_left h.payload_ne
    obtain ⟨text', v', htext', hv', hemit⟩ := canonicalizeV1_eq_ok h.canonical
    rw [decode?_encode] at htext'
    cases htext'
    have ht := hr.mem_text hm
    rw [hraw] at ht
    obtain rfl := eq_of_parseDocument hv' (document_self ht)
    obtain ⟨cs, hcs⟩ : ∃ cs, w.payload = '{' :: cs := head?_eq_some_iff.mp h.object
    obtain ⟨ps, hps⟩ := obj_of_text_head (hcs ▸ ht)
    have hpd := mem_depth hdepth hm
    have hpp := mem_inProfile hprof hm
    rw [hps] at hemit hpd hpp
    exact ⟨ps, hemit, hpp, hpd⟩
  refine ⟨hen.seq, hen.ring, ⟨_, rfl, hen.content⟩, ⟨_, rfl, hen.prev⟩, ⟨_, rfl, hen.ts⟩,
    ⟨_, rfl, hen.type⟩, ⟨_, rfl, ?_⟩, hpayload⟩
  rcases hparts.sig with hs | ⟨m, hm, hs⟩
  · rw [hs]; simp
  · have := mem_inProfile hprof hm
    rw [hs] at this
    exact this

theorem decodeEvent_storable (h : decodeEvent raw = .ok e) : Storable e ∧ Unmarked e := by
  obtain ⟨text, v, w, en, -, hd, rfl⟩ := decoded_of_decodeEvent h
  exact ⟨storable_of_decoded hd, rfl, rfl, rfl⟩

def unsigned (e : Event) : Event := { e with sig := [] }

theorem Storable.unsigned (h : Storable e) : Storable (unsigned e) := { h with sig := ⟨[], rfl, by simp⟩ }

/-! ### The shape of a line -/

theorem encode_braces (t : List Char) :
    Utf8.encode ('{' :: (t ++ ['}'])) = 0x7B :: (Utf8.encode t ++ [0x7D]) := by
  rw [encode_cons, encode_append, encode_cons, encode_nil]
  rfl

theorem writeFields_closed (first : Bool) (ms : List Member) : ∃ t, writeFields first ms = t ++ ['}'] := by
  induction ms generalizing first with
  | nil => exact ⟨[], rfl⟩
  | cons m ms ih =>
    obtain ⟨t, ht⟩ := ih false
    exact ⟨(if first then [] else [',']) ++ (('"' :: (m.key ++ ['"'])) ++ ':' :: (m.raw ++ t)),
      by simp [writeFields, ht]⟩

theorem marshalJSON_line {e : Event} {ms : List (List Char × Value)}
    (hp : e.payload = Utf8.encode (emitCanonicalJSONValue (.obj ms))) (hprof : InProfile (.obj ms)) :
    ∃ m, marshalJSON e = .ok (0x7B :: (m ++ [0x7D])) ∧ newline ∉ (0x7B :: (m ++ [0x7D]) : Bytes) := by
  have hc := compact_record e (normalize (.obj ms)) (compact_emit hprof)
  obtain ⟨t, ht⟩ :=
    writeFields_closed true (recordMembers e (normalize (.obj ms)) (emitCanonicalJSONValue (.obj ms)))
  have heq : recordText e (normalize (.obj ms)) (emitCanonicalJSONValue (.obj ms)) =
      '{' :: (t ++ ['}']) := by rw [recordText, ht]
  rw [heq] at hc
  refine ⟨Utf8.encode t, ?_, ?_⟩
  · rw [marshalJSON_eq (text_emit hprof) hp, heq, encode_braces]
  · rw [← encode_braces]
    exact notMem_encode (by decide) hc.no_newline

theorem ws_nil_of_front {w : List Char} (hw : Ws w)
    (h : dropCode spaceCodes (Utf8.encode (w ++ t)) = none) : w = [] := by
  cases w with
  | nil => rfl
  | cons c w =>
    have hc := hw c (mem_cons_self ..)
    simp only [isSpace, Bool.or_eq_true, beq_iff_eq] at hc
    rcases hc with ((rfl | rfl) | rfl) | rfl <;> exact absurd h (by
      rw [cons_append, encode_cons, encode_ascii (by decide)]
      exact some_ne_none _)

theorem ws_nil_of_back {w : List Char} (hw : Ws w)
    (h : dropCode (spaceCodes.map List.reverse) (Utf8.encode (t ++ w)).reverse = none) : w = [] := by
  rcases eq_nil_or_concat w with rfl | ⟨w', c, rfl⟩
  · rfl
  · have hc := hw c (by simp)
    simp only [isSpace, Bool.or_eq_true, beq_iff_eq] at hc
    rcases hc with ((rfl | rfl) | rfl) | rfl <;> exact absurd h (by
      rw [concat_eq_append, ← append_assoc, encode_append, encode_cons,
        encode_nil, encode_ascii (by decide), append_nil, reverse_append]
      exact some_ne_none _)

theorem decodeEvent_braces (h : decodeEvent raw = .ok e) (ht : Trimmed raw) :
    ∃ m, raw = 0x7B :: (m ++ [0x7D]) := by
  obtain ⟨text, v, w, en, rfl, hd, -⟩ := decoded_of_decodeEvent h
  obtain ⟨ms, rest, hx, hrest, -, -⟩ := hd.members
  obtain ⟨w0, r, hw0, hr, rfl⟩ := fields_of_readFirst hx
  obtain ⟨r', rfl⟩ := hr.closed
  obtain rfl := ws_nil_of_front hw0 ht.1
  have hback := ht.2
  rw [nil_append, ← cons_append] at hback
  obtain rfl := ws_nil_of_back hrest hback
  exact ⟨Utf8.encode r', by rw [nil_append, append_nil, encode_braces]⟩

theorem unsigned_length_le {line : Bytes} (h : decodeEvent raw = .ok e)
    (hl : marshalJSON (unsigned e) = .ok line) : line.length ≤ raw.length := by
  obtain ⟨text, v, w, en, rfl, hd, rfl⟩ := decoded_of_decodeEvent h
  obtain ⟨ms, rest, hx, -, -, hparts⟩ := hd.members
  obtain ⟨w0, r, -, hr, rfl⟩ := fields_of_readFirst hx
  obtain ⟨a, ha, hna, hraw⟩ := hparts.entry.resolve_left hd.entry_ne
  obtain ⟨b, hb, hnb, hrawb⟩ := hparts.payload.resolve_left hd.payload_ne
  have hab : a ≠ b := by
    rintro rfl
    rw [hna] at hnb
    exact absurd hnb (by decide)
  have hla : (5 : Nat) = a.key.length := fieldOf_length hna
  have hlb : (7 : Nat) = b.key.length := fieldOf_length hnb
  have hsum := weight_add_le ha hb hab
  have hlen := hr.length_le
  have hentry : (Utf8.encode (entryText (eventOf w en))).length = (Utf8.encode a.raw).length := by
    rw [hd.form, hraw]
  rw [marshalJSON, if_neg (by
    intro h0
    exact hd.payload_ne (encode_injective (h0 : Utf8.encode w.payload = Utf8.encode [])))] at hl
  cases hl
  have h9 : (Utf8.encode "\x7b\"entry\":".toList).length = 9 := by decide +kernel
  have h11 : (Utf8.encode ",\"payload\":".toList).length = 11 := by decide +kernel
  have h1 : (Utf8.encode ([] ++ ['}'])).length = 1 := by decide +kernel
  have hbrace : (String.utf8EncodeChar '{').length = 1 := by decide +kernel
  have hsig : sigText (unsigned (eventOf w en)) = [] := rfl
  have hunsigned : entryText (unsigned (eventOf w en)) = entryText (eventOf w en) := rfl
  have hpay : (unsigned (eventOf w en)).payload = Utf8.encode b.raw := by rw [hrawb]; rfl
  simp only [Member.weight] at hsum
  rw [if_pos rfl] at hlen
  rw [hsig, hunsigned, hpay, length_append, length_append, h1]
  simp only [encode_append, encode_cons, length_append, h9, h11, hbrace, hentry]
  omega

end AiiOs.Ledger
