import AiiOs.Witness.HeadVerify
import AiiOs.Ledger.Chain

/-! Which receipts stand behind the unsigned records of an accepted record. -/

namespace AiiOs.Witness
open Lib AiiOs.Ledger List

/-! ### Heads -/

/-- The head carries this receipt, and its signature verifies under a persisted key. -/
structure Receipted (p : Primitives) (keys : Keys) (z : Event) (r : HeadReceipt) : Prop where
  carried : readCarried z = .ok (.receipt r)
  signed : ∃ km sig, keys r.witnessKeyID = some km ∧ base64Decode r.witnessSigB64 = some sig ∧
    p.verify km.publicKey (receiptSignatureInput r) sig

variable {r : HeadReceipt}

variable {p : Primitives} {keys : Keys} {h' : HeadState} {seg : Segment} {part : List Reading}
  {e : Event} {d : Dir} {tail : Option Bytes}

theorem checkSignature_eq_ok {seq : Nat} {km : WitnessKeyMaterial}
    (h : checkSignature p seq km r = .ok ()) :
    ∃ sig, base64Decode r.witnessSigB64 = some sig ∧ p.verify km.publicKey (receiptSignatureInput r) sig := by
  unfold checkSignature at h
  split at h
  · cases h
  · split_ifs at h
    split at h
    · cases h
    · split at h
      · cases h
      · rename_i sig hsig
        split_ifs at h with hv
        exact ⟨sig, hsig, hv⟩

variable {hashAt : Nat → Option Bytes}

variable {h : HeadState} {evt : Event}

theorem verifyReceipt_none (hv : verifyReceipt p keys h evt hashAt r = (h', none)) :
    checkPlace h evt hashAt r = .ok () ∧
      ∃ km, keys r.witnessKeyID = some km ∧ checkSignature p evt.seq km r = .ok () := by
  unfold verifyReceipt at hv
  split at hv
  · cases hv
  · rename_i hplace
    refine ⟨hplace, ?_⟩
    dsimp only at hv
    split at hv
    · cases hv
    split at hv
    · cases hv
    split at hv
    · cases hv
    · rename_i km hkm
      split at hv
      · cases hv
      · rename_i hsig
        exact ⟨km, hkm, hsig⟩

theorem verifyHead_none {n : Nat} (hv : verifyHead p keys h evt hashAt = (h', n, none)) :
    readCarried evt = .ok .footnote ∨ ∃ r, Receipted p keys evt r ∧
      (evt.closing → r.ledgerOrdinal = evt.seq - 1) := by
  unfold verifyHead at hv
  split at hv
  · cases hv
  split at hv
  · cases hv
  · exact .inl ‹_›
  · rename_i r hr
    refine .inr ⟨r, ?_⟩
    obtain ⟨h₁, err, hvr⟩ : ∃ h₁ err, verifyReceipt p keys h evt hashAt r = (h₁, err) := ⟨_, _, rfl⟩
    rw [hvr] at hv
    cases hv
    obtain ⟨hplace, km, hkm, hsig⟩ := verifyReceipt_none hvr
    obtain ⟨sig, hdec, hver⟩ := checkSignature_eq_ok hsig
    refine ⟨⟨hr, km, sig, hkm, hdec, hver⟩, fun hc => ?_⟩
    unfold checkPlace at hplace
    split_ifs at hplace with h1
    exact h1.2

/-! ### The record -/

/-- `z` closes the segment `e` was read from. -/
def Closes (z e : Event) : Prop := z.closing ∧ z.container = e.container

theorem segment_event {ls : List Line} (h : Forall₂ (Read seg.mark) ls part)
    (he : e ∈ part.map Reading.event) : ∃ e', e = seg.mark e' := by
  obtain ⟨r, hr, rfl⟩ := List.mem_map.mp he
  obtain ⟨l, -, e', -, rfl⟩ := forall₂_mem_right h hr
  exact ⟨e', rfl⟩

theorem exists_closing_segment (h : streamSegment seg = ⟨part, none⟩)
    (hpw : (part.map Reading.event).Pairwise fun a b => a.seq < b.seq) (he : e ∈ part.map Reading.event) :
    ∃ z ∈ part.map Reading.event, Closes z e ∧ z.sealed ∧ z.type = eventSystemWitnessed ∧
      z.sig ≠ [] ∧ (e = z ∨ e.seq < z.seq) := by
  obtain ⟨-, hread, -, z, hz, hseq, htype, hsig⟩ := streamSegment_eq_ok.mp h
  obtain ⟨init, hinit⟩ := getLast?_eq_some_iff.mp hz
  rw [hinit] at hpw he ⊢
  have hzmem : z ∈ init ++ [z] := mem_append_right _ (mem_singleton_self z)
  obtain ⟨e', rfl⟩ := segment_event hread (hinit ▸ he)
  obtain ⟨z', rfl⟩ := segment_event hread (hinit ▸ hzmem)
  refine ⟨seg.mark z', hzmem, ⟨by simpa [Segment.mark] using hseq, rfl⟩, rfl, htype, hsig, ?_⟩
  rcases mem_append.mp he with he | he
  · exact .inr ((pairwise_append.mp hpw).2.2 _ he _ (mem_singleton_self _))
  · exact .inl (mem_singleton.mp he)

variable {sha256 : Bytes → Bytes} {evs : List Event}

/-- An event read stands in a segment or in the tail. -/
theorem mem_stream (h : stream sha256 d tail = (evs, none)) (he : e ∈ evs) :
    (∃ seg part, streamSegment seg = ⟨part, none⟩ ∧ e ∈ part.map Reading.event ∧
      (part.map Reading.event).Sublist evs) ∨ ∃ l e', decodeEvent l = .ok e' ∧ e = markTail e' := by
  obtain ⟨rs, hrs, rfl⟩ := stream_eq_ok.mp h
  obtain ⟨segs, t, a, b, -, -, ha, hb, rfl⟩ := streamLines_eq_ok.mp hrs
  obtain ⟨r, hr, rfl⟩ := List.mem_map.mp he
  rcases mem_append.mp hr with hr | hr
  · obtain ⟨parts, hparts, rfl⟩ := streamSegments_eq_ok.mp ha
    obtain ⟨part, hpart, hrp⟩ := mem_flatten.mp hr
    obtain ⟨seg, -, hseg⟩ := forall₂_mem_right hparts hpart
    exact .inl ⟨seg, part, hseg, List.mem_map_of_mem hrp,
      ((sublist_flatten_of_mem hpart).trans (sublist_append_left _ _)).map _⟩
  · have hmem : r ∈ (streamTail sha256 t segs.getLast?).readings := by rw [hb]; exact hr
    obtain ⟨l, -, e, hd, rfl⟩ := tailWalk_read hmem
    exact .inr ⟨_, e, hd, rfl⟩

theorem exists_closing
    (h : stream sha256 d tail = (evs, none)) (hpw : evs.Pairwise fun a b => a.seq < b.seq)
    (he : e ∈ evs) (hs : e.sealed) :
    ∃ z ∈ evs, Closes z e ∧ z.sealed ∧ z.type = eventSystemWitnessed ∧ z.sig ≠ [] ∧
      (e = z ∨ e.seq < z.seq) := by
  rcases mem_stream h he with ⟨seg, part, hseg, he, hsub⟩ | ⟨l, e, hd, rfl⟩
  · obtain ⟨z, hz, hrest⟩ := exists_closing_segment hseg (hpw.sublist hsub) he
    exact ⟨z, hsub.subset hz, hrest⟩
  · have hu := (decodeEvent_storable hd).2.1
    simp [markTail, hu] at hs

theorem container_of_closing (h : stream sha256 d tail = (evs, none)) {z : Event} (hz : z ∈ evs)
    (hc : z.closing) : ∃ first, z.container = .segment first z.seq := by
  rcases mem_stream h hz with ⟨seg, part, hseg, hz, -⟩ | ⟨l, e, hd, rfl⟩
  · obtain ⟨e, rfl⟩ := segment_event (streamSegment_eq_ok.mp hseg).2.1 hz
    have hlast : e.seq = seg.last := by simpa [Segment.mark] using hc
    exact ⟨seg.first, by simp [Segment.mark, Segment.name, hlast]⟩
  · have hu := (decodeEvent_storable hd).2.2.1
    simp [markTail, hu] at hc

section
variable {ν ψ : Type} {p : Primitives} {keys : Keys} {pubKey : Bytes}
  {visit : ν → Event → Except ψ ν} {v : ν} {s : ChainState HeadState ν}

/-- An unsigned record is attested by a verified receipt, and the head that closes
its segment carries one. -/
def Covered (p : Primitives) (keys : Keys) (evs : List Event) (e : Event) : Prop :=
  (∃ z ∈ evs, ∃ r, Receipted p keys z r ∧ (e.seq : Int) ≤ r.ledgerOrdinal) ∧
    ∀ z ∈ evs, Closes z e → ∃ r, Receipted p keys z r

theorem closing_head_receipted
    (h : verifyChain p pubKey (some (headVerifier p keys)) visit (evs, none) .init v = .ok s) {z : Event}
    (hz : z ∈ evs) (hs : z.sealed) (ht : z.type = eventSystemWitnessed) (hc : z.closing)
    (hf : readCarried z ≠ .ok .footnote) : ∃ r, Receipted p keys z r ∧ r.ledgerOrdinal = z.seq - 1 := by
  obtain ⟨s₁, s₂, hacc⟩ := accepted_of_verifyChain h hz
  obtain ⟨attested, err, hv, herr⟩ := hacc.head _ rfl ht
  cases err with
  | some e => exact absurd hs (by simp [(herr e rfl).1])
  | none =>
    rcases verifyHead_none hv with hfoot | ⟨r, hr, hord⟩
    · exact absurd hfoot hf
    · exact ⟨r, hr, hord hc⟩

/-- An accepted record stands on verified receipts exactly when no segment with an
unsigned record closes under a footnote. -/
theorem unsigned_covered_iff {d : Dir} {tail : Option Bytes}
    (h : verifyChain p pubKey (some (headVerifier p keys)) visit (stream p.sha256 d tail) .init v = .ok s) :
    (∀ e ∈ (stream p.sha256 d tail).1, e.sig = [] → Covered p keys (stream p.sha256 d tail).1 e) ↔
      ∀ e ∈ (stream p.sha256 d tail).1, e.sig = [] →
        ∀ z ∈ (stream p.sha256 d tail).1, Closes z e → readCarried z ≠ .ok .footnote := by
  have herr := (verifyChain_eq_ok.mp h).2
  rcases hsrc : stream p.sha256 d tail with ⟨evs, err⟩
  rw [hsrc] at h herr
  cases herr
  have hchain := chained_of_verifyChain h
  constructor
  · intro hcov e he hsig z hz hcl hfoot
    obtain ⟨r, hr⟩ := (hcov e he hsig).2 z hz hcl
    rw [hr.carried] at hfoot
    cases hfoot
  · intro hfoot e he hsig
    obtain ⟨s₁, s₂, hacc⟩ := accepted_of_verifyChain h he
    have hsealed : e.sealed := by
      rcases hacc.proof with hv | hs
      · simp [verifyEventSignature, hsig] at hv
      · exact hs.2
    obtain ⟨z, hz, hcl, hzs, hzt, hzsig, hlt⟩ := exists_closing hsrc hchain.pairwise he hsealed
    have hseq : e.seq < z.seq := by
      rcases hlt with rfl | hlt
      · exact absurd hsig hzsig
      · exact hlt
    obtain ⟨r, hr, hord⟩ := closing_head_receipted h hz hzs hzt hcl.1 (hfoot e he hsig z hz hcl)
    refine ⟨⟨z, hz, r, hr, by omega⟩, ?_⟩
    -- the record with the number of the segment's end is the only one that closes it
    intro z' hz' hcl'
    obtain ⟨f, hf⟩ := container_of_closing hsrc hz hcl.1
    obtain ⟨f', hf'⟩ := container_of_closing hsrc hz' hcl'.1
    have heq : z'.seq = z.seq :=
      (Container.segment.inj (hf'.symm.trans (hcl'.2.trans (hcl.2.symm.trans hf)))).2
    rw [inj_on_of_nodup_map (hchain.seqs ▸ nodup_range') hz' hz heq]
    exact ⟨r, hr⟩

end

/-! ### A record of one segment -/

def sealedDir (payload : Bytes) : Dir where
  segments := [⟨1, 2, lineOf openingRecord ++ lineOf (headRecord payload), false, Nat.one_pos,
    Nat.two_pos⟩]
  tail := some []
  temps := []

def witnessKey : WitnessKeyMaterial := ⟨bytesOf "k", [2], none, 10, ⟨[], []⟩⟩

def footnotePayload : Bytes := bytesOf "\x7b\"receipt_before_rewrap\":\x7b\x7d\x7d"

def noVisit (_ : Unit) (_ : Event) : Except Unit Unit := .ok ()

def acceptsSealed (keys : Keys) (payload : Bytes) : Bool :=
  (verifyChain checksum identityKey (some (headVerifier checksum keys)) noVisit
    (stream checksum.sha256 (sealedDir payload) none) .init ()).isOk

/-- A record whose one segment closes under a footnote is accepted with no key at all:
its unsigned record has no verified receipt anywhere. -/
theorem footnote_closes_segment : acceptsSealed (fun _ => none) footnotePayload ∧
      ∃ e ∈ (stream checksum.sha256 (sealedDir footnotePayload) none).1, e.sig = [] ∧
        ¬∃ z ∈ (stream checksum.sha256 (sealedDir footnotePayload) none).1, ∃ r,
          Receipted checksum (fun _ => none) z r := by
  refine ⟨by decide +kernel, ?_⟩
  have hmem : ∃ e ∈ (stream checksum.sha256 (sealedDir footnotePayload) none).1, e.sig = [] := by
    decide +kernel
  obtain ⟨e, he, hsig⟩ := hmem
  refine ⟨e, he, hsig, ?_⟩
  rintro ⟨z, -, r, hr⟩
  obtain ⟨km, -, hkm, -⟩ := hr.signed
  cases hkm

/-! The same segment closed under a receipt. -/

def oneKey : Keys := fun keyID => if keyID = bytesOf "k" then some witnessKey else none

def issuedReceipt : HeadReceipt :=
  let r : HeadReceipt := ⟨bytesOf "i", -1, zeroLedgerHash, 1, entryHash checksum.sha256 openingRecord,
    bytesOf "t", bytesOf "k", []⟩
  { r with witnessSigB64 := signWith witnessKey.publicKey (receiptSignatureInput r) }

def receiptPayload (r : HeadReceipt) : Bytes :=
  bytesOf "\x7b\"receipt\":\x7b\"identity_id\":\"" ++ (r.identityID ++ (bytesOf "\",\"ledger_hash\":\"" ++
    (r.ledgerHash ++ (bytesOf "\",\"ledger_ordinal\":" ++ (Utf8.encode (decimalInt r.ledgerOrdinal) ++
      (bytesOf ",\"previous_witnessed_ledger_hash\":\"" ++ (r.previousWitnessedLedgerHash ++
        (bytesOf "\",\"previous_witnessed_ledger_ordinal\":" ++
          (Utf8.encode (decimalInt r.previousWitnessedLedgerOrdinal) ++
            (bytesOf ",\"witness_key_id\":\"" ++ (r.witnessKeyID ++
              (bytesOf "\",\"witness_sig_b64\":\"" ++ (Utf8.encode r.witnessSigB64 ++
                (bytesOf "\",\"witnessed_at\":\"" ++ (r.witnessedAt ++
                  bytesOf "\"\x7d\x7d")))))))))))))))

theorem unsigned_covered_receipt : acceptsSealed oneKey (receiptPayload issuedReceipt) ∧
      ∀ e ∈ (stream checksum.sha256 (sealedDir (receiptPayload issuedReceipt)) none).1, e.sig = [] →
        Covered checksum oneKey
          (stream checksum.sha256 (sealedDir (receiptPayload issuedReceipt)) none).1 e := by
  have hok : acceptsSealed oneKey (receiptPayload issuedReceipt) := by decide +kernel
  have hfoot : ∀ z ∈ (stream checksum.sha256 (sealedDir (receiptPayload issuedReceipt)) none).1,
      readCarried z ≠ .ok .footnote := by decide +kernel
  refine ⟨hok, ?_⟩
  unfold acceptsSealed at hok
  cases hv : verifyChain checksum identityKey (some (headVerifier checksum oneKey)) noVisit
      (stream checksum.sha256 (sealedDir (receiptPayload issuedReceipt)) none) .init () with
  | error e => simp [hv, Except.toBool] at hok
  | ok s => exact (unsigned_covered_iff hv).mpr fun _ _ _ z hz _ => hfoot z hz

end AiiOs.Witness
