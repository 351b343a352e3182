import AiiOs.Ledger.Append
import AiiOs.Ledger.Chain
import AiiOs.Ledger.Opening
import AiiOs.Lib.LastLine

/-! What an accepted append leaves for the reader. -/

namespace AiiOs.Ledger
open Lib Lib.Json AiiOs.CanonicalJson List Option Utf8

/-! ### A file with one more line -/

def lineTexts (s : Bytes) : List Bytes :=
  ((splitLines s).filter fun t => trimSpace t ≠ []).map trimSpace

variable {es : List Event} {t : Bytes} {es' : List Event} {xs : List Bytes}

theorem holds_iff {s : Bytes} : Holds s es ↔ (∀ tok ∈ splitLines s, fits maxEventLineBytes tok) ∧
      Decodes (lineTexts s) es := by
  constructor
  · intro h
    have htexts : _ = lineTexts s := scan_texts h.fits
    exact ⟨scan_fits.mp h.fits, htexts ▸ h.decodes⟩
  · rintro ⟨hfits, hdec⟩
    have hscan := scan_fits.mpr hfits
    have htexts : _ = lineTexts s := scan_texts hscan
    exact ⟨hscan, htexts.symm ▸ hdec⟩

theorem Decodes.unique (h : Decodes xs es) (h' : Decodes xs es') : es = es' := by
  induction h generalizing es' with
  | nil =>
    cases h'
    rfl
  | cons hd _ ih =>
    cases h' with
    | cons hd' h' =>
      cases hd.symm.trans hd'
      rw [ih h']

theorem Terminated.openEnd_blank (h : Terminated t) : trimSpace (openEnd t) = [] := by
  by_contra hne
  have hopen : openEnd t ≠ [] := by
    intro h0
    rw [h0] at hne
    exact hne rfl
  have hmem : openEnd t ∈ splitLines t := by
    rw [splitLines_openEnd, if_neg hopen]
    exact mem_append_right _ (mem_singleton_self _)
  have hlast := h _ hmem hne
  rw [terminated, beq_iff_eq] at hlast
  exact newline_notMem_openEnd t (mem_of_getLast? hlast)

theorem Terminated.finish {x : Bytes} (h : Terminated t) (hx : newline ∉ x) :
    Terminated (t ++ (x ++ [newline])) := by
  intro p hp hne
  rw [splitLines_finish t hx, mem_append, mem_singleton] at hp
  rcases hp with hp | rfl
  · refine h p ?_ hne
    rw [splitLines_openEnd]
    exact mem_append_left _ hp
  · rw [terminated, ← append_assoc, getLast?_concat]
    rfl

theorem Holds.closed (h : Holds t es) (ht : Terminated t) : Holds (closedPart t) es := by
  obtain ⟨hfits, hdec⟩ := holds_iff.mp h
  have hblank : (if openEnd t = [] then [] else [openEnd t]).filter (trimSpace · ≠ []) = [] := by
    split_ifs
    · rfl
    · simp [ht.openEnd_blank]
  rw [lineTexts, splitLines_openEnd t, filter_append, hblank, append_nil] at hdec
  refine holds_iff.mpr ⟨fun tok htok => hfits tok ?_, hdec⟩
  rw [splitLines_openEnd]
  exact mem_append_left _ htok

section
variable {t m : Bytes} (ht : Terminated t) (hx : newline ∉ (0x7B :: (m ++ [0x7D]) : Bytes))
include ht hx

theorem lineTexts_finish : lineTexts (t ++ (0x7B :: (m ++ [0x7D]) ++ [newline])) =
    lineTexts (closedPart t) ++ [0x7B :: (m ++ [0x7D])] := by
  have htrim : trimSpace (openEnd t ++ (0x7B :: (m ++ [0x7D]) ++ [newline])) = 0x7B :: (m ++ [0x7D]) := by
    rw [trimSpace_append ht.openEnd_blank, trimSpace_braces]
  have hne : trimSpace (openEnd t ++ (0x7B :: (m ++ [0x7D]) ++ [newline])) ≠ [] := by
    rw [htrim]
    exact cons_ne_nil _ _
  rw [lineTexts, splitLines_finish t hx, filter_append, map_append,
    filter_cons_of_pos (p := fun t => decide (trimSpace t ≠ [])) (decide_eq_true hne),
    filter_nil, map_singleton, htrim]
  rfl

theorem Holds.finish {es : List Event} (h : Holds t es) :
    Holds (t ++ (0x7B :: (m ++ [0x7D]) ++ [newline])) es' ↔
      (openEnd t).length + (0x7B :: (m ++ [0x7D]) : Bytes).length + 1 ≤ maxEventLineBytes ∧
        ∃ e, decodeEvent (0x7B :: (m ++ [0x7D])) = .ok e ∧ es' = es ++ [e] := by
  obtain ⟨hclosed, hold⟩ := holds_iff.mp (h.closed ht)
  have htexts := lineTexts_finish ht hx
  generalize (0x7B :: (m ++ [0x7D]) : Bytes) = x at hx htexts ⊢
  have hfit : Lib.fits maxEventLineBytes (openEnd t ++ (x ++ [newline])) ↔
      (openEnd t).length + x.length + 1 ≤ maxEventLineBytes := by
    rw [Lib.fits]
    simp [add_assoc]
  rw [holds_iff, htexts, splitLines_finish t hx, forall_mem_append, forall_mem_singleton, hfit]
  constructor
  · rintro ⟨⟨-, hroom⟩, hes'⟩
    obtain ⟨a, b, rfl, ha, hb⟩ := forall₂_append_left hes'
    obtain ⟨e, _, he, hnil, rfl⟩ := forall₂_cons_left_iff.mp hb
    cases hnil
    exact ⟨hroom, e, he, by rw [hold.unique ha]⟩
  · rintro ⟨hroom, e, he, rfl⟩
    exact ⟨⟨hclosed, hroom⟩, rel_append hold (.cons he .nil)⟩

end

/-! ### The new event -/

theorem plain_of_printable {cs : List Char} (h : ∀ c ∈ cs, Printable c) : PlainString (Utf8.encode cs) :=
  ⟨cs, rfl, fun h0 => absurd (h _ h0) (by decide)⟩

theorem plain_nil : PlainString [] := ⟨[], rfl, by simp⟩

def payloadDepth (raw : Bytes) : Nat :=
  match (Utf8.decode? raw).map parseDocument with
  | some (.ok v) => v.depth
  | _ => 0

structure CanonicalObject (raw : Bytes) (ms : List (List Char × Value)) : Prop where
  raw_eq : raw = Utf8.encode (emitCanonicalJSONValue (.obj ms))
  inProfile : InProfile (.obj ms)
  depth : (Value.obj ms).depth = payloadDepth raw

variable {id : Option (List Char)}

theorem object_of_modelID {raw : Bytes} {text : List Char} {v : Value} (h : payloadModelID raw = .ok id)
    (htext : Utf8.decode? raw = some text) (hv : parseDocument text = .ok v) : ∃ ms, v = .obj ms := by
  unfold payloadModelID at h
  split at h
  · rename_i ms rest hread
    obtain ⟨x, hx, hfirst⟩ := bind_eq_some_iff.mp hread
    cases hx.symm.trans htext
    obtain ⟨hdoc, -, hdepth⟩ := parseDocument_eq_ok.mp hv
    exact ⟨_, (document_fields hdoc hdepth hfirst).1⟩
  · cases h

theorem canonicalObject_of_modelID {payload : PreparedPayload}
    (h : payloadModelID payload.raw = .ok id) : ∃ ms, CanonicalObject payload.raw ms := by
  obtain ⟨raw, hcanon⟩ := payload
  have hok : canonicalizeV1 raw = .ok raw := by
    refine hcanon.resolve_left ?_
    rintro rfl
    cases (rfl : payloadModelID [] = .error .notObject).symm.trans h
  obtain ⟨text, v, htext, hv, heq⟩ := canonicalizeV1_eq_ok hok
  obtain ⟨ms, rfl⟩ := object_of_modelID h htext hv
  obtain ⟨-, hprof, -⟩ := parseDocument_eq_ok.mp hv
  refine ⟨ms, heq, hprof, ?_⟩
  rw [payloadDepth, htext, map_some, hv]

section
variable {p : Primitives} {kp : KeyPair} {l : LedgerState} {req : AppendRequest} {evt : Event} {line : Bytes}

structure NewEvent (p : Primitives) (kp : KeyPair) (l : LedgerState) (req : AppendRequest) (evt : Event)
    (line : Bytes) : Prop where
  payload : ∃ ms, CanonicalObject req.payload.raw ms
  signed : ∃ sig, kp.sign (signatureInputGold (bytesOf sigAlg) (publicKeyFingerprint p kp.publicKey)
      (entryHash p.sha256 evt)) = some sig ∧
    evt = { unsignedEvent p l req with sig := Utf8.encode (base64Encode sig) }
  marshal : marshalJSON evt = .ok line
  size : line.length ≤ maxEventLineBytes

theorem newEvent_eq_ok (h : newEvent p kp l req = .ok (evt, line)) : NewEvent p kp l req evt line := by
  unfold newEvent at h
  dsimp only at h
  split at h
  · cases h
  rename_i id hid
  split at h
  · cases h
  rename_i sig hsig
  obtain ⟨raw, hraw, rfl⟩ := map_eq_some_iff.mp hsig
  split at h
  · cases h
  rename_i b hb
  split at h
  · cases h
  rename_i hsize
  cases h
  exact ⟨canonicalObject_of_modelID hid, ⟨raw, hraw, rfl⟩, hb, Nat.le_of_not_lt hsize⟩

section
variable (h : NewEvent p kp l req evt line)
include h

theorem NewEvent.unmarked : Unmarked evt := by
  obtain ⟨sig, -, rfl⟩ := h.signed
  exact ⟨rfl, rfl, rfl⟩

theorem NewEvent.seq : evt.seq = nextSeq l.lastSeq := by
  obtain ⟨sig, -, rfl⟩ := h.signed
  rfl

theorem NewEvent.prev : evt.prev = if 1 < nextSeq l.lastSeq then l.lastHash else [] := by
  obtain ⟨sig, -, rfl⟩ := h.signed
  rfl

end

section
variable (h : NewEvent p kp l req evt line)
include h

theorem NewEvent.line_eq : ∃ m, line = 0x7B :: (m ++ [0x7D]) ∧ newline ∉ line := by
  obtain ⟨ms, hms⟩ := h.payload
  obtain ⟨sig, -, rfl⟩ := h.signed
  obtain ⟨m, hm, hnl⟩ := @marshalJSON_line
    { unsignedEvent p l req with sig := Utf8.encode (base64Encode sig) } ms hms.raw_eq hms.inProfile
  cases hm.symm.trans h.marshal
  exact ⟨m, rfl, hnl⟩

theorem NewEvent.storable_iff (hlast : PlainString l.lastHash) : Storable evt ↔
      PlainString req.eventType ∧ payloadDepth req.payload.raw + 1 ≤ maxNestingDepth := by
  obtain ⟨ms, hms⟩ := h.payload
  obtain ⟨sig, -, rfl⟩ := h.signed
  constructor
  · intro hs
    refine ⟨hs.type, ?_⟩
    obtain ⟨ms', heq, hprof, hdepth⟩ := hs.payload
    have hparse := parseDocument_emit hprof (Nat.le_of_succ_le hdepth)
    have hraw : req.payload.raw = Utf8.encode (emitCanonicalJSONValue (.obj ms')) := heq
    rw [payloadDepth, hraw, decode?_encode, map_some, hparse]
    exact depth_normalize_eq_obj hdepth
  · rintro ⟨htype, hdepth⟩
    exact {
      seq := Nat.mod_lt _ (by decide)
      ring := ⟨req.ring.le_toInt, req.ring.toInt_lt⟩
      content := plain_of_printable (printable_hexEncode _)
      prev := by
        show PlainString (if 1 < nextSeq l.lastSeq then l.lastHash else [])
        split_ifs
        · exact hlast
        · exact plain_nil
      timestamp := plain_of_printable (printable_rfc3339Nano _)
      type := htype
      sig := plain_of_printable (printable_base64Encode _)
      payload := ⟨ms, hms.raw_eq, hms.inProfile, by rw [hms.depth]; exact hdepth⟩ }

theorem NewEvent.lineOf_eq : lineOf evt = line ++ [newline] := by
  rw [lineOf, h.marshal]

end

/-! ### The record behind the append -/

variable {es sealedEvs : List Event} {e : Event} {d : Dir} {t : Bytes} {b : List Reading}

theorem Decodes.storable (h : Decodes xs es) (he : e ∈ es) : Storable e := by
  obtain ⟨x, -, hx⟩ := forall₂_mem_right h he
  exact (decodeEvent_storable hx).1

theorem plain_entryHash (sha256 : Bytes → Bytes) (e : Event) : PlainString (entryHash sha256 e) :=
  plain_of_printable (printable_hexEncode _)

variable {sha256 : Bytes → Bytes}

theorem InOrder.last_cases (h : InOrder sha256 d l sealedEvs es) :
    (es = [] ∧ l.lastSeq = l.sealedSeq ∧ l.lastHash = l.sealedHash) ∨
      ∃ z ∈ es, es.getLast? = some z ∧ l.lastSeq = z.seq ∧ l.lastHash = entryHash sha256 z := by
  have hlast := h.last
  rw [LedgerState.advance] at hlast
  cases hz : es.getLast? with
  | none =>
    rw [hz] at hlast
    rw [hlast]
    exact .inl ⟨getLast?_eq_none_iff.mp hz, rfl, rfl⟩
  | some z =>
    rw [hz] at hlast
    rw [hlast]
    exact .inr ⟨z, mem_of_getLast? hz, rfl, rfl, rfl⟩

theorem SealedEnd.cases (h : SealedEnd sha256 l) :
    (l.segments = [] ∧ l.sealedSeq = 0 ∧ l.sealedHash = []) ∨
      ∃ newest z, l.segments.getLast? = some newest ∧ Storable z ∧ l.sealedSeq = newest.last ∧
        l.sealedSeq = z.seq ∧ l.sealedHash = entryHash sha256 z := by
  unfold SealedEnd at h
  cases hs : l.segments.getLast? with
  | none =>
    rw [hs] at h
    exact .inl ⟨getLast?_eq_none_iff.mp hs, h⟩
  | some newest =>
    rw [hs] at h
    obtain ⟨es, z, hholds, hz, hseq, hhash⟩ := h
    obtain ⟨z', hz', hclose⟩ := hholds.closed
    cases hz.symm.trans hz'
    exact .inr ⟨newest, z, rfl, hholds.holds.decodes.storable (mem_of_getLast? hz), hseq,
      hseq.trans hclose.1.symm, hhash⟩

section
variable (h : InOrder sha256 d l sealedEvs es)
include h

theorem InOrder.last_plain : PlainString l.lastHash := by
  rcases h.last_cases with ⟨-, -, heq⟩ | ⟨z, -, -, -, heq⟩
  · rw [heq]
    rcases h.sealedEnd.cases with ⟨-, -, hhash⟩ | ⟨-, z, -, -, -, -, hhash⟩
    · rw [hhash]
      exact plain_nil
    · rw [hhash]
      exact plain_entryHash _ _
  · rw [heq]
    exact plain_entryHash _ _

theorem InOrder.last_lt : l.lastSeq < 2 ^ 64 := by
  rcases h.last_cases with ⟨-, heq, -⟩ | ⟨z, hz, -, heq, -⟩
  · rw [heq]
    rcases h.sealedEnd.cases with ⟨-, h0, -⟩ | ⟨-, z, -, hz, -, hseq, -⟩
    · rw [h0]
      decide
    · rw [hseq]
      exact hz.seq
  · obtain ⟨t, -, hholds, -⟩ := h.tail
    rw [heq]
    exact (hholds.decodes.storable hz).seq

theorem InOrder.sealed_le_last
    {newest : Segment} (hs : l.segments.getLast? = some newest) : newest.last ≤ l.lastSeq := by
  rcases h.last_cases with ⟨-, heq, -⟩ | ⟨z, hz, -, heq, -⟩
  · rw [heq, (h.sealedEnd.pos hs).1]
  · rw [heq]
    exact le_of_lt (h.behind newest hs z hz)

end

/-- What a reader needs of an append beyond the checks of the writer: its buffer has room
for the line with its newline, behind what blank text the tail ends in; the type is a
string that is stored as it is; the payload may stand one level down; and the number has
not come round while there are segments to be behind. -/
structure ReadsBack (l : LedgerState) (d : Dir) (req : AppendRequest) (evt : Event) : Prop where
  room : (openEnd (d.tail.getD [])).length + (lineOf evt).length ≤ maxEventLineBytes
  type : PlainString req.eventType
  depth : payloadDepth req.payload.raw + 1 ≤ maxNestingDepth
  seq : l.segments = [] ∨ l.lastSeq + 1 < 2 ^ 64

theorem nextSeq_of_lt {n : Nat} (h : n + 1 < 2 ^ 64) : nextSeq n = n + 1 := Nat.mod_eq_of_lt h

variable {d : Dir} {sealedEvs es : List Event}

section
variable (hnew : NewEvent p kp l req evt line) (h : InOrder p.sha256 d l sealedEvs es)
  (hseq : l.segments = [] ∨ l.lastSeq + 1 < 2 ^ 64)
include hnew h hseq

theorem NewEvent.behind : Behind l.segments.getLast? (es ++ [evt]) := by
  intro seg hseg e he
  rcases mem_append.mp he with he | he
  · exact h.behind seg hseg e he
  · cases mem_singleton.mp he
    have hlt : l.lastSeq + 1 < 2 ^ 64 := by
      refine hseq.resolve_left fun h0 => ?_
      rw [h0] at hseg
      cases hseg
    have := h.sealed_le_last hseg
    rw [hnew.seq, nextSeq_of_lt hlt]
    omega

theorem NewEvent.continues : Continues l (es ++ [evt]) := by
  intro hpos e he
  cases es with
  | cons a as => exact h.continues hpos e he
  | nil =>
    cases he
    have hlast : l.lastSeq = l.sealedSeq ∧ l.lastHash = l.sealedHash := by
      rcases h.last_cases with ⟨-, hlast⟩ | ⟨z, hz, -⟩
      · exact hlast
      · cases hz
    have hlt : l.lastSeq + 1 < 2 ^ 64 := by
      rcases h.sealedEnd.cases with ⟨-, h0, -⟩ | ⟨newest, -, hs, -⟩
      · omega
      · refine hseq.resolve_left fun h0 => ?_
        rw [h0] at hs
        cases hs
    have hnext := nextSeq_of_lt hlt
    refine ⟨by rw [hnew.seq, hnext, hlast.1], ?_⟩
    rw [hnew.prev, if_pos (by omega), hlast.2]

end

/-- An append that can be read back leaves the record in order, one event longer. -/
theorem InOrder.append (h : InOrder p.sha256 d l sealedEvs es)
    (hnew : NewEvent p kp l req evt line) (hr : ReadsBack l d req evt) :
    InOrder p.sha256 (writeTail d (line ++ [newline]))
      { l with lastSeq := evt.seq, lastHash := entryHash p.sha256 evt } sealedEvs (es ++ [evt]) := by
  obtain ⟨t, ht, hholds, hterm⟩ := h.tail
  obtain ⟨m, rfl, hnl⟩ := hnew.line_eq
  have hroom := hr.room
  have hstore := (hnew.storable_iff h.last_plain).mpr ⟨hr.type, hr.depth⟩
  obtain ⟨line, hline, hdec⟩ := decodeEvent_marshalJSON hstore hnew.unmarked
  cases hline.symm.trans hnew.marshal
  rw [hnew.lineOf_eq, ht, length_append] at hroom
  refine {
    temps := h.temps
    listed := h.listed
    segments := h.segments
    sealedEnd := h.sealedEnd
    tail := ⟨_, by rw [writeTail, ht]; rfl, ?_, hterm.finish hnl⟩
    continues := hnew.continues h hr.seq
    behind := hnew.behind h hr.seq
    last := by simp [LedgerState.advance]
    fresh := h.fresh }
  exact (hholds.finish hterm hnl).mpr ⟨hroom, evt, hdec, rfl⟩

theorem appendPrepared_eq_ok {d' : Dir} {l' : LedgerState} {io : AppendIo}
    (h : appendPrepared p kp l d req io = (.ok evt, l', d')) :
    ∃ line, NewEvent p kp l req evt line ∧ checkTail p kp l d io = .ok () ∧
      l' = { l with lastSeq := evt.seq, lastHash := entryHash p.sha256 evt } ∧
      d' = writeTail d (line ++ [newline]) := by
  unfold appendPrepared at h
  split at h
  · cases h
  split at h
  · cases h
  rename_i hcheck
  split at h
  · cases h
  rename_i evt' line hnew
  split at h
  · cases h
  · cases h
    exact ⟨line, newEvent_eq_ok hnew, hcheck, rfl, rfl⟩

theorem streamTail_first {seg : Segment} {rs : List Reading}
    (h : streamTail sha256 t (some seg) = ⟨rs, none⟩) {x : Line}
    (hx : x ∈ (scan maxEventLineBytes t).1.head?) (he : decodeEvent x.text = .ok e) :
    seg.first ≤ e.seq := by
  unfold streamTail at h
  cases hs : (scan maxEventLineBytes t).1 with
  | nil => simp [hs] at hx
  | cons y ys =>
    rw [hs] at h hx
    cases hx
    by_contra hlt
    have hstep : tailStep sha256 (some seg) .start true e = .error (.tailRepeats e.seq) := by
      have := seg.first_le
      rw [tailStep, if_pos (by omega), if_pos (.inr (by omega))]
    simp only [tailWalk, he, hstep] at h
    cases h

theorem markTail_injective {e' : Event} (h : Unmarked e) (h' : Unmarked e')
    (heq : markTail e = markTail e') : e = e' := by
  obtain ⟨h1, h2, h3⟩ := h
  obtain ⟨h1', h2', h3'⟩ := h'
  cases e
  cases e'
  simp only [markTail, Event.mk.injEq] at heq h1 h2 h3 h1' h2' h3' ⊢
  simp [heq, h3, h3']

theorem decodes_of_delivered {newest : Option Segment} {x : Bytes}
    (h : streamTail sha256 t newest = ⟨b, none⟩) (hx : lineTexts t = [x]) (he : Unmarked e)
    (hb : markTail e ∈ b.map Reading.event) : decodeEvent x = .ok e := by
  obtain ⟨r, hr, hre⟩ := List.mem_map.mp hb
  have hmem : r ∈ (streamTail sha256 t newest).readings := h ▸ hr
  obtain ⟨y, hy, e', hdec, rfl⟩ := tailWalk_read hmem
  cases markTail_injective (decodeEvent_storable hdec).2 he hre
  obtain ⟨tok, htok, htext, -⟩ := scan_line hy
  have hne : trimSpace tok ≠ [] := by
    intro h0
    rw [htext, h0] at hdec
    cases (rfl : decodeEvent [] = .error _).symm.trans hdec
  have hin : trimSpace tok ∈ lineTexts t := List.mem_map_of_mem (mem_filter.mpr ⟨htok, decide_eq_true hne⟩)
  rw [hx, mem_singleton] at hin
  rw [← hin, ← htext]
  exact hdec

theorem NewEvent.starts_behind (hnew : NewEvent p kp l req evt line)
    (h : InOrder p.sha256 d l sealedEvs es) (hholds : Holds t es) (hterm : Terminated t)
    (hb : streamTail p.sha256 (t ++ (line ++ [newline])) l.segments.getLast? = ⟨b, none⟩)
    (hevs : markTail evt ∈ b.map Reading.event) :
    ∀ seg, l.segments.getLast? = some seg →
      ∀ x ∈ (scan maxEventLineBytes (t ++ (line ++ [newline]))).1.head?, ∀ e,
        decodeEvent x.text = .ok e → seg.last < e.seq := by
  intro seg hseg x hx e he
  obtain ⟨m, rfl, hnl⟩ := hnew.line_eq
  have htexts := lineTexts_finish hterm hnl
  have hhead : (lineTexts (t ++ (0x7B :: (m ++ [0x7D]) ++ [newline]))).head? = some x.text := by
    obtain ⟨q, hq, hqx⟩ := scanTokens_head hx
    rw [lineTexts, head?_map, hq, hqx]
    rfl
  have hold := (holds_iff.mp (hholds.closed hterm)).2
  cases es with
  | cons a as =>
    obtain ⟨y, ys, hya, -, hy⟩ := forall₂_cons_right_iff.mp hold
    rw [htexts, hy] at hhead
    cases hhead
    cases hya.symm.trans he
    exact h.behind seg hseg _ (mem_cons_self ..)
  | nil =>
    -- the new line is the first record, so its number is the one the state gave it
    rw [forall₂_nil_right_iff.mp hold] at htexts
    rw [htexts] at hhead
    have hdec := decodes_of_delivered hb htexts hnew.unmarked hevs
    rw [Option.some.inj hhead] at hdec
    cases hdec.symm.trans he
    rw [hseg] at hb
    have hfirst := streamTail_first hb hx he
    have hle := h.sealed_le_last hseg
    have hpos := seg.first_pos
    rw [hnew.seq] at hfirst ⊢
    have hlt := h.last_lt
    unfold nextSeq at hfirst ⊢
    omega

/-- An accepted append is delivered behind all earlier records, field for field, exactly when
the reader's own needs are met; the state is then again the one its files have. -/
theorem append_reads_back_iff {d₀ d' : Dir} {l' : LedgerState} {evs : List Event}
    (hopen : openLedger p.sha256 d₀ = .ok (l, d)) (hstream : stream p.sha256 d none = (evs, none))
    (happend : appendPrepared p kp l d req .fine = (.ok evt, l', d')) :
    (stream p.sha256 d' none = (evs ++ [markTail evt], none) ↔ ReadsBack l d req evt) ∧
      (ReadsBack l d req evt → openLedger p.sha256 d' = .ok (l', d')) := by
  obtain ⟨sealedEvs, es, hin, rfl⟩ := inOrder_of_open hopen hstream
  obtain ⟨line, hnew, -, rfl, rfl⟩ := appendPrepared_eq_ok happend
  refine ⟨⟨?_, fun hr => ?_⟩, fun hr => ?_⟩
  -- the tail read back is the old one and the new line
  · intro hread
    obtain ⟨t, ht, hholds, hterm⟩ := hin.tail
    obtain ⟨a, ha, rfl⟩ := hin.segments
    obtain ⟨rs, hrs, heq⟩ := stream_eq_ok.mp hread
    obtain ⟨segs, t', a', b, hsegs, ht', ha', hb, rfl⟩ := streamLines_eq_ok.mp hrs
    cases hin.listed.symm.trans hsegs
    cases ha.symm.trans ha'
    have htail : t' = t ++ (line ++ [newline]) := by
      rw [writeTail, ht] at ht'
      exact (Option.some.inj ht').symm
    subst htail
    rw [append_assoc, map_append, append_cancel_left_eq] at heq
    have hevs : markTail evt ∈ b.map Reading.event :=
      heq ▸ mem_append_right _ (mem_singleton_self _)
    obtain ⟨es', hes', hbehind, hmap⟩ :=
      (streamTail_holds (hnew.starts_behind hin hholds hterm hb hevs)).mp ⟨b, hb, heq.symm⟩
    obtain ⟨m, rfl, hnl⟩ := hnew.line_eq
    obtain ⟨hroom, e, hdec, rfl⟩ := (hholds.finish hterm hnl).mp hes'
    rw [map_append, append_cancel_left_eq] at hmap
    cases markTail_injective (decodeEvent_storable hdec).2 hnew.unmarked (List.cons.inj hmap).1.symm
    obtain ⟨htype, hdepth⟩ :=
      (hnew.storable_iff hin.last_plain).mp (decodeEvent_storable hdec).1
    refine ⟨?_, htype, hdepth, ?_⟩
    · rw [hnew.lineOf_eq, ht, length_append]
      exact hroom
    · cases hs : l.segments.getLast? with
      | none => exact .inl (getLast?_eq_none_iff.mp hs)
      | some seg =>
        have hpos := hbehind seg hs _ (mem_append_right _ (mem_singleton_self _))
        have := hin.last_lt
        rw [hnew.seq, nextSeq] at hpos
        omega
  · have hread := (hin.append hnew hr).stream
    rwa [map_append, ← append_assoc] at hread
  · exact (hin.append hnew hr).openLedger []

end

/-! ### A line that fills the limit -/

def constantHash : Primitives where
  sha256 _ := List.replicate 32 0
  verify _ _ _ := true
  parseTime _ := none

def constantKey : KeyPair := ⟨[1], fun _ => some [0]⟩

def newLedger : LedgerState := ⟨0, [], 0, [], [], none, none, false⟩

def newDir : Dir := ⟨[], some [], []⟩

section
variable (n : Nat)

def textMembers : List (List Char × Value) := [("text".toList, .str (List.replicate n 'x'))]

theorem textMembers_inProfile : InProfile (.obj (textMembers n)) := by
  refine ⟨nodup_singleton _, ?_, trivial⟩
  intro h
  exact absurd (eq_of_mem_replicate h) (by decide)

/-- A payload with a text of `n` letters. -/
def textPayload : PreparedPayload where
  raw := Utf8.encode (emitCanonicalJSONValue (.obj (textMembers n)))
  canonical := .inr (canonicalizeV1_emit (textMembers_inProfile n) (by
    simp [textMembers, Value.depth, membersDepth, maxNestingDepth]))

def textRequest : AppendRequest where
  eventType := bytesOf "experience.create"
  ring := 3
  payload := textPayload n
  now := ⟨2026, 1, 1, 0, 0, 0, 0⟩

def textMember : Member :=
  ⟨"text".toList, .str (List.replicate n 'x'), emitCanonicalJSONString (List.replicate n 'x')⟩

theorem emit_textMembers :
    emitCanonicalJSONValue (.obj (textMembers n)) = '{' :: writeFields true [textMember n] := by
  have hkey : emitCanonicalJSONString "text".toList = '"' :: ("text".toList ++ ['"']) := by decide
  have hsort : ∀ m : List Char × List Char, [m].insertionSort keyLe = [m] := fun _ => rfl
  simp only [textMembers, textMember, emitCanonicalJSONValue, emitMembers, hsort, writeMembers, hkey,
    writeFields, append_assoc, cons_append, nil_append]

theorem emitString_letters : emitCanonicalJSONString (List.replicate n 'x') =
    '"' :: (List.replicate n 'x' ++ ['"']) := by
  have hflat : (List.replicate n 'x').flatMap emitRune = .replicate n 'x' := by
    induction n with
    | zero => rfl
    | succ n ih =>
      rw [replicate_succ, flatMap_cons, ih]
      rfl
  rw [emitCanonicalJSONString, hflat]

theorem payloadModelID_text : payloadModelID (textPayload n).raw = .ok none := by
  have hread : readFirst ('{' :: writeFields true [textMember n]) = some (.inr [textMember n], []) := by
    refine readFirst_write ?_ ?_ ?_
    · rw [forall_mem_singleton]
      exact (by decide : PlainKey "text".toList)
    · rw [forall_mem_singleton]
      exact str_emit _
    · exact (by decide : 1 + max 0 0 ≤ maxNestingDepth)
  simp only [payloadModelID, textPayload, decode?_encode, bind_some, emit_textMembers, hread]
  rfl

theorem length_encode_letters : (Utf8.encode (List.replicate n 'x')).length = n := by
  induction n with
  | zero => rfl
  | succ n ih =>
    rw [replicate_succ, encode_cons, length_append, ih]
    exact add_comm 1 n

theorem length_textPayload : (textPayload n).raw.length = n + 11 := by
  have hraw : emitCanonicalJSONValue (.obj (textMembers n)) =
      "\x7b\"text\":\"".toList ++ (.replicate n 'x' ++ "\"\x7d".toList) := by
    rw [emit_textMembers, textMember, emitString_letters]
    simp [writeFields]
  have h9 : (Utf8.encode "\x7b\"text\":\"".toList).length = 9 := by decide +kernel
  have h2 : (Utf8.encode "\"\x7d".toList).length = 2 := by decide +kernel
  show (Utf8.encode (emitCanonicalJSONValue (.obj (textMembers n)))).length = n + 11
  rw [hraw, encode_append, encode_append, length_append, length_append, length_encode_letters]
  omega

/-- The event of a text of `n` letters, first in the record. -/
def textEvent : Event :=
  { unsignedEvent constantHash newLedger (textRequest n) with sig := Utf8.encode (base64Encode [0]) }

theorem newEvent_text {n : Nat} (hn : n + 205 ≤ maxEventLineBytes) : ∃ line,
    newEvent constantHash constantKey newLedger (textRequest n) = .ok (textEvent n, line) ∧
    line.length = n + 205 := by
  have hhead : (Utf8.encode ("\x7b\"entry\":".toList ++ (entryText (textEvent 0) ++
      ",\"payload\":".toList))).length = 180 := by decide +kernel
  have hend : (Utf8.encode (sigText (textEvent 0) ++ ['}'])).length = 14 := by decide +kernel
  have hne : (textPayload n).raw ≠ [] := by
    intro h0
    have := length_textPayload n
    rw [h0] at this
    cases this
  obtain ⟨line, hline, hlen⟩ : ∃ line, marshalJSON (textEvent n) = .ok line ∧ line.length = n + 205 := by
    refine ⟨_, if_neg hne, ?_⟩
    rw [length_append, length_append]
    have hpay : (textEvent n).payload.length = n + 11 := length_textPayload n
    have h1 : (Utf8.encode ("\x7b\"entry\":".toList ++ (entryText (textEvent n) ++
      ",\"payload\":".toList))).length = 180 := hhead
    have h2 : (Utf8.encode (sigText (textEvent n) ++ ['}'])).length = 14 := hend
    omega
  refine ⟨line, ?_, hlen⟩
  have hsign : signB64 constantKey (signatureInputGold (bytesOf sigAlg)
      (publicKeyFingerprint constantHash constantKey.publicKey)
      (entryHash constantHash.sha256 (unsignedEvent constantHash newLedger (textRequest n)))) =
        some (Utf8.encode (base64Encode [0])) := rfl
  have hmodel : payloadModelID (textRequest n).payload.raw = .ok none := payloadModelID_text n
  have hline' : marshalJSON { unsignedEvent constantHash newLedger (textRequest n) with
      sig := Utf8.encode (base64Encode [0]) } = .ok line := hline
  simp only [newEvent, hmodel, hsign, hline', if_neg (not_lt.mpr (hlen ▸ hn))]
  rfl

theorem stream_tooLong {sha256 : Bytes → Bytes} {line : Bytes} (hnl : newline ∉ line)
    (hlen : maxEventLineBytes < line.length + 1) (temps : List Bytes) :
    stream sha256 ⟨[], some (line ++ [newline]), temps⟩ none = ([], some (.tooLong .tail)) := by
  have hfits : fits maxEventLineBytes (line ++ [newline]) = false := by
    rw [fits, if_pos getLast?_concat, length_append]
    exact decide_eq_false (not_le.mpr hlen)
  have hscan : scan maxEventLineBytes (line ++ [newline]) = ([], true) := by
    rw [scan, splitLines_line hnl [], scanTokens, hfits]
    rfl
  have hlist : listSegments ⟨[], some (line ++ [newline]), temps⟩ = .ok [] := rfl
  simp only [stream, streamLines, none_or, streamTail, tailReadErr, hscan]
  rfl

theorem append_text_unreadable {n : Nat} (hn : n + 205 = maxEventLineBytes) : ∃ evt l' d',
    appendPrepared constantHash constantKey newLedger newDir (textRequest n) .fine = (.ok evt, l', d') ∧
      (lineOf evt).length = maxEventLineBytes + 1 ∧
      stream constantHash.sha256 d' none = ([], some (.tooLong .tail)) := by
  obtain ⟨line, hevent, hlen⟩ := newEvent_text (le_of_eq hn)
  rw [hn] at hlen
  have hnew := newEvent_eq_ok hevent
  obtain ⟨m, -, hnl⟩ := hnew.line_eq
  have hrefuse : appendRefusal newLedger = none := rfl
  have hcheck : checkTail constantHash constantKey newLedger newDir .fine = .ok () := by decide +kernel
  simp only [appendPrepared, hevent]
  refine ⟨_, _, _, rfl, ?_, stream_tooLong hnl (hlen ▸ Nat.lt_succ_self _) []⟩
  rw [hnew.lineOf_eq, length_append, hlen]
  rfl

/-- An event whose line has exactly the allowed length is accepted, and the record can no
longer be read. -/
theorem boundary_append_unreadable : ∃ evt l' d',
    openLedger constantHash.sha256 ⟨[], none, []⟩ = .ok (newLedger, newDir) ∧
      stream constantHash.sha256 newDir none = ([], none) ∧
      appendPrepared constantHash constantKey newLedger newDir
        (textRequest (maxEventLineBytes - 205)) .fine = (.ok evt, l', d') ∧
      (lineOf evt).length = maxEventLineBytes + 1 ∧
      stream constantHash.sha256 d' none = ([], some (.tooLong .tail)) := by
  have hn : maxEventLineBytes - 205 + 205 = maxEventLineBytes := by decide
  obtain ⟨evt, l', d', happend, hread⟩ := append_text_unreadable hn
  exact ⟨evt, l', d', rfl, rfl, happend, hread⟩

/-- The append of a short text, as far as it is delivered again. -/
def deliversAppend : Bool :=
  match appendPrepared constantHash constantKey newLedger newDir (textRequest n) .fine with
  | (.ok evt, _, d') => decide (stream constantHash.sha256 d' none = ([markTail evt], none))
  | _ => false

end

theorem append_reads_back_text : ∃ evt l' d',
    appendPrepared constantHash constantKey newLedger newDir (textRequest 3) .fine = (.ok evt, l', d') ∧
      ReadsBack newLedger newDir (textRequest 3) evt ∧
      openLedger constantHash.sha256 d' = .ok (l', d') := by
  have hok : deliversAppend 3 := by decide +kernel
  unfold deliversAppend at hok
  split at hok
  · rename_i evt l' d' happend
    have hopen : openLedger constantHash.sha256 ⟨[], none, []⟩ = .ok (newLedger, newDir) := rfl
    obtain ⟨hiff, hagain⟩ := append_reads_back_iff hopen rfl happend
    have hr := hiff.mp (of_decide_eq_true hok)
    exact ⟨evt, l', d', happend, hr, hagain hr⟩
  · cases hok

end AiiOs.Ledger
