import AiiOs.Witness.Pending

/-! What the receipts in an accepted record say of it: they name records that came before
them, one after the other, and none that comes late is refused for want of a hash. -/

namespace AiiOs.Witness
open Lib AiiOs.Ledger List Option

/-- The receipt names a record of `before` by its number and its hash. -/
def Attests (sha256 : Bytes → Bytes) (before : List Event) (r : HeadReceipt) : Prop :=
  ∃ e ∈ before, (e.seq : Int) = r.ledgerOrdinal ∧ entryHash sha256 e = r.ledgerHash

instance (sha256 : Bytes → Bytes) (before : List Event) (r : HeadReceipt) :
    Decidable (Attests sha256 before r) := inferInstanceAs (Decidable (∃ e ∈ before, _))

def attestedBy (record : List Event) : Int × Bytes :=
  ((lastReceipt record).map fun r => (r.ledgerOrdinal, r.ledgerHash)).getD (-1, zeroLedgerHash)

section
variable {p : Primitives} {keys : Keys} {pubKey : Bytes} {ν ψ : Type} {visit : ν → Event → Except ψ ν}
  {before : List Event} {head : Event} {r : HeadReceipt} {s s' : ChainState HeadState ν}

theorem Walked.attestedBy (h : Walked p before s) :
    attestedBy before = (s.heads.prevOrdinal, s.heads.prevHash) := by
  have hchain := h.chain
  rw [Witness.attestedBy]
  cases hlast : lastReceipt before with
  | none =>
    rw [hlast] at hchain
    exact Prod.ext (congrArg Prod.fst hchain).symm (congrArg (·.2.1) hchain).symm
  | some r =>
    rw [hlast] at hchain
    exact Prod.ext (congrArg Prod.fst hchain).symm (congrArg (·.2.1) hchain).symm

theorem type_of_receiptOf (h : receiptOf head = some r) : head.type = eventSystemWitnessed := by
  rw [receiptOf] at h
  split_ifs at h with ht
  exact not_not.mp ht

theorem Walked.hashAt_of_lt (h : Walked p before s) {n : Int} (hpos : 0 < n)
    (hlow : s.heads.prevOrdinal < n) (hhigh : n ≤ before.length) :
    ∃ e, before[n.toNat - 1]? = some e ∧ s.since.hashAt n.toNat = some (entryHash p.sha256 e) := by
  have hat : s.heads.chainAt < n.toNat := by
    rw [HeadState.chainAt]
    omega
  have hlt : n.toNat - 1 < before.length := by omega
  refine ⟨before[n.toNat - 1], getElem?_eq_getElem hlt, ?_⟩
  rw [h.window.hashAt hat, getElem?_eq_getElem hlt, map_some]

theorem attests_of_getElem? {sha256 : Bytes → Bytes} (hchain : Chained sha256 0 [] before) {n : Int}
    (hpos : 0 < n) {e : Event} (he : before[n.toNat - 1]? = some e) (hord : r.ledgerOrdinal = n)
    (hhash : entryHash sha256 e = r.ledgerHash) : Attests sha256 before r := by
  have hseq := hchain.seq_getElem? he
  exact ⟨e, mem_of_getElem? he, by omega, hhash⟩

theorem receipt_passed (hw : Walked p before s) (hchain : Chained p.sha256 0 [] before)
    (hv : verifyRecord p pubKey (some (headVerifier p keys)) visit s head = .ok s')
    (hr : receiptOf head = some r) :
    (r.previousWitnessedLedgerOrdinal, r.previousWitnessedLedgerHash) = attestedBy before ∧
      (attestedBy before).1 < r.ledgerOrdinal ∧
      (Attests p.sha256 before r ↔ r.ledgerOrdinal ≠ 0) := by
  have ha := verifyRecord_accepted hv
  have hseq : head.seq = before.length + 1 := by rw [ha.seq, hw.seq]
  -- an unknown key is the only error a head may pass with
  rcases verifyRecord_heads hv with ⟨ht, -⟩ | ⟨ht, attested, err, hhead, herr, -⟩
  · exact absurd (type_of_receiptOf hr) ht
  have hkey : ∀ e, err = some e → e.ofKey := fun e he => HeadError.ofKey_of_isKeyUnknown (herr e he)
  obtain ⟨-, ⟨hnone, -⟩ | ⟨r', hr', hc, -⟩⟩ := verifyHead_passed ht hhead hkey
  · rw [hnone] at hr
    cases hr
  obtain rfl : r = r' := some_inj.mp (hr.symm.trans hr')
  have hbehind := hw.behind
  rw [hw.attestedBy, hc.ordinal, hc.hash]
  refine ⟨rfl, ?_, fun ⟨e, he, hord, _⟩ hzero => ?_, fun hzero => ?_⟩
  · rcases checkPlace_eq_ok.mp hc.place with ⟨hon, -⟩ | ⟨-, -, hlow, -⟩
    · omega
    · exact hlow
  · obtain ⟨i, hi⟩ := getElem?_of_mem he
    have := hchain.seq_getElem? hi
    omega
  · have hstart := hw.start
    rcases checkPlace_eq_ok.mp hc.place with ⟨hon, hhash⟩ | ⟨-, -, hlow, hhigh, hat⟩
    · -- on time: the record right before the head, whose hash the head links to
      have hlen : r.ledgerOrdinal = before.length := by omega
      have hne : before ≠ [] := fun hnil => by
        rw [hnil] at hlen
        exact hzero hlen
      obtain ⟨e, he, hlast⟩ := map_eq_some_iff.mp (@lastHash_eq _ p.sha256 hne)
      have hindex : r.ledgerOrdinal.toNat - 1 = before.length - 1 := by omega
      refine attests_of_getElem? hchain (by omega) (hindex ▸ he) rfl ?_
      rw [hlast, hhash, ha.prev, hw.prev]
    · have hpos : 0 < r.ledgerOrdinal := by omega
      obtain ⟨e, he, hash⟩ := hw.hashAt_of_lt hpos hlow (by omega)
      rw [hat] at hash
      exact attests_of_getElem? hchain hpos he rfl (some_inj.mp hash).symm

variable {hashAt : Nat → Option Bytes} {ordinal : Int}

variable {n : Nat} {h : HeadState} {evt : Event}

theorem checkPlace_hashNotAtHand (hp : checkPlace h evt hashAt r = .error (.hashNotAtHand n ordinal)) :
    hashAt r.ledgerOrdinal.toNat = none := by
  rw [checkPlace] at hp
  split_ifs at hp
  · cases hp
  · cases hp
  · cases hp
  · split at hp
    · assumption
    · split_ifs at hp
      cases hp

theorem verifyReceipt_hashNotAtHand
    (hv : (verifyReceipt p keys h evt hashAt r).2 = some (.hashNotAtHand n ordinal)) :
    checkPlace h evt hashAt r = .error (.hashNotAtHand n ordinal) := by
  by_cases hc : Continues h evt hashAt r
  · cases continues_iff.mp hc _ hv
  cases hplace : checkPlace h evt hashAt r with
  | error e =>
    rw [verifyReceipt, hplace] at hv
    rw [some_inj.mp hv]
  | ok u =>
    rw [verifyReceipt, hplace] at hv
    dsimp only at hv
    split at hv
    · cases hv
    rename_i hid
    split at hv
    · cases hv
    rename_i hcont
    rw [not_or, not_not, not_not] at hcont
    refine absurd ⟨hplace, ?_, hcont.1, hcont.2⟩ hc
    by_contra hboth
    rw [not_or] at hboth
    exact hid hboth

theorem hashNotAtHand_refused (hw : Walked p before s) {f : VerifyFailure HeadError}
    (hv : verifyRecord p pubKey (some (headVerifier p keys)) visit s head = .error (.failure f))
    (hf : f.requirement = .witnessHead (.hashNotAtHand n ordinal)) (hr : receiptOf head = some r)
    (hlow : (attestedBy before).1 < r.ledgerOrdinal) (hhigh : r.ledgerOrdinal < head.seq) :
    r.ledgerOrdinal = 0 := by
  obtain ⟨hseq, -, -, -, t, attested, hhead⟩ := verifyRecord_witnessHead hv hf
  rw [hw.seq] at hseq
  have hnone := checkPlace_hashNotAtHand (verifyReceipt_hashNotAtHand (verifyHead_receipt hr hhead))
  by_contra hzero
  have hstart := hw.start
  rw [hw.attestedBy] at hlow
  obtain ⟨e, -, hash⟩ := hw.hashAt_of_lt (n := r.ledgerOrdinal) (by omega) hlow (by omega)
  rw [hnone] at hash
  cases hash

/-! ### Whole records -/

theorem attestedBy_concat (before : List Event) (head : Event) : attestedBy (before ++ [head]) =
      ((receiptOf head).map fun r => (r.ledgerOrdinal, r.ledgerHash)).getD (attestedBy before) := by
  rw [attestedBy, lastReceipt_concat]
  cases receiptOf head <;> rfl

variable {record : List Event}

theorem walked_of_foldlM {v : ν}
    (hv : record.foldlM (verifyRecord p pubKey (some (headVerifier p keys)) visit) (.init .init v) = .ok s) :
    Walked p record s := (Walked.init v).run hv

def receipts (record : List Event) : List HeadReceipt := record.filterMap receiptOf

theorem receipts_concat (before : List Event) (head : Event) :
    receipts (before ++ [head]) = receipts before ++ (receiptOf head).toList := by
  rw [receipts, receipts]
  cases h : receiptOf head <;> simp [h]

section
variable {v : ν} (hv : record.foldlM (verifyRecord p pubKey (some (headVerifier p keys)) visit)
  (.init .init v) = .ok s)
include hv

theorem receipts_increase :
    (receipts record).Pairwise (fun r r' => r.ledgerOrdinal < r'.ledgerOrdinal) ∧
      ∀ r ∈ receipts record, r.ledgerOrdinal ≤ (attestedBy record).1 := by
  induction record using List.reverseRecOn generalizing s with
  | nil => exact ⟨.nil, nofun⟩
  | append_singleton before head ih =>
    rw [foldlM_append] at hv
    obtain ⟨m, hm, hv⟩ := bind_eq_ok.mp hv
    obtain ⟨s', hv, -⟩ := foldlM_cons_eq_ok.mp hv
    obtain ⟨hpair, hle⟩ := ih hm
    rw [receipts_concat, attestedBy_concat]
    cases hr : receiptOf head with
    | none => simpa using ⟨hpair, hle⟩
    | some r =>
      obtain ⟨-, hlt, -⟩ := receipt_passed (walked_of_foldlM hm) (chained_of_foldlM hm) hv hr
      simp only [map_some, getD_some]
      refine ⟨pairwise_append.mpr ⟨hpair, pairwise_singleton _ _, ?_⟩, ?_⟩
      · intro r₁ h₁ r₂ h₂
        obtain rfl := mem_singleton.mp h₂
        have := hle r₁ h₁
        omega
      · intro r₁ h₁
        rcases mem_append.mp h₁ with h₁ | h₁
        · have := hle r₁ h₁
          omega
        · obtain rfl := mem_singleton.mp h₁
          exact le_refl _

end

/-- In every record that is accepted the receipts name growing ordinals, and each goes on
exactly from the one before it; each names an earlier record by its number and its hash
exactly where none names the number zero; and no head behind the record whose receipt
names a number between the last one attested and its own place, zero apart, is refused
because a hash is not at hand. -/
theorem receipts_stand_iff (p : Primitives) (keys : Keys) (pubKey : Bytes) (visit : ν → Event → Except ψ ν)
    (v : ν) (source : List Event × Option RecordError) (s : ChainState HeadState ν)
    (hv : verifyChain p pubKey (some (headVerifier p keys)) visit source .init v = .ok s) :
    (receipts source.1).Pairwise (fun r r' => r.ledgerOrdinal < r'.ledgerOrdinal) ∧
      (∀ before head after r, source.1 = before ++ head :: after → receiptOf head = some r →
        (r.previousWitnessedLedgerOrdinal, r.previousWitnessedLedgerHash) = attestedBy before) ∧
      ((∀ before head after r, source.1 = before ++ head :: after → receiptOf head = some r →
          Attests p.sha256 before r) ↔ ∀ r ∈ receipts source.1, r.ledgerOrdinal ≠ 0) ∧
      ∀ head r f n ordinal, receiptOf head = some r → (attestedBy source.1).1 < r.ledgerOrdinal →
        r.ledgerOrdinal < head.seq → r.ledgerOrdinal ≠ 0 →
        verifyRecord p pubKey (some (headVerifier p keys)) visit s head = .error (.failure f) →
        f.requirement ≠ .witnessHead (.hashNotAtHand n ordinal) := by
  have hfold := (verifyChain_eq_ok.mp hv).1
  -- what a receipt that has passed says, wherever it stands
  have hstep : ∀ {before head after r}, source.1 = before ++ head :: after → receiptOf head = some r →
      (r.previousWitnessedLedgerOrdinal, r.previousWitnessedLedgerHash) = attestedBy before ∧
        (attestedBy before).1 < r.ledgerOrdinal ∧
        (Attests p.sha256 before r ↔ r.ledgerOrdinal ≠ 0) := by
    intro before head after r hsplit hr
    rw [hsplit, foldlM_append] at hfold
    obtain ⟨m, hm, hfold⟩ := bind_eq_ok.mp hfold
    obtain ⟨m', hm', -⟩ := foldlM_cons_eq_ok.mp hfold
    exact receipt_passed (walked_of_foldlM hm) (chained_of_foldlM hm) hm' hr
  refine ⟨(receipts_increase hfold).1, fun _ _ _ _ hsplit hr => (hstep hsplit hr).1, ⟨?_, ?_⟩, ?_⟩
  · intro hall r hr
    obtain ⟨head, hmem, hr⟩ := mem_filterMap.mp hr
    obtain ⟨before, after, hsplit⟩ := append_of_mem hmem
    exact (hstep hsplit hr).2.2.mp (hall before head after r hsplit hr)
  · intro hnone before head after r hsplit hr
    refine (hstep hsplit hr).2.2.mpr (hnone r (mem_filterMap.mpr ⟨head, ?_, hr⟩))
    rw [hsplit]
    exact mem_append_right _ mem_cons_self
  · intro head r f n ordinal hr hlow hhigh hzero hfail hreq
    exact hzero (hashNotAtHand_refused (walked_of_foldlM hfold) hfail hreq hr hlow hhigh)

end

/-! ### Two small records -/

theorem receipts_stand_issued :
    ∃ s, verifyChain checksum identityKey (some (headVerifier checksum oneKey)) noVisit
        ([signRecord openingRecord, headRecord (receiptPayload issuedReceipt)], none) .init () = .ok s ∧
      receipts [signRecord openingRecord, headRecord (receiptPayload issuedReceipt)] = [issuedReceipt] ∧
      ∀ before head after r,
        [signRecord openingRecord, headRecord (receiptPayload issuedReceipt)] = before ++ head :: after →
        receiptOf head = some r → Attests checksum.sha256 before r := by
  have hreceipts : receipts [signRecord openingRecord, headRecord (receiptPayload issuedReceipt)] =
      [issuedReceipt] := by decide +kernel
  have hok : (verifyChain checksum identityKey (some (headVerifier checksum oneKey)) noVisit
      ([signRecord openingRecord, headRecord (receiptPayload issuedReceipt)], none) .init ()).isOk := by
    decide +kernel
  cases hv : verifyChain checksum identityKey (some (headVerifier checksum oneKey)) noVisit
      ([signRecord openingRecord, headRecord (receiptPayload issuedReceipt)], none) .init () with
  | error e => simp [hv, Except.toBool] at hok
  | ok s =>
    obtain ⟨-, -, hall, -⟩ := receipts_stand_iff checksum oneKey identityKey noVisit () _ s hv
    refine ⟨s, rfl, hreceipts, hall.mpr fun r hr => ?_⟩
    rw [hreceipts] at hr
    obtain rfl := mem_singleton.mp hr
    decide

def zeroReceipt : HeadReceipt :=
  let r : HeadReceipt := ⟨bytesOf "i", -1, zeroLedgerHash, 0, [], bytesOf "t", bytesOf "k", []⟩
  { r with witnessSigB64 := signWith witnessKey.publicKey (receiptSignatureInput r) }

def firstHead : Event := signRecord { openingRecord with
    type := eventSystemWitnessed
    ring := 0
    content := contentHash checksum.sha256 (receiptPayload zeroReceipt)
    payload := receiptPayload zeroReceipt }

/-- The record is accepted and its receipt verified, and there is no record the receipt
could name. -/
theorem firstHead_attests_nothing :
    (verifyChain checksum identityKey (some (headVerifier checksum oneKey)) noVisit
        ([firstHead], none) .init ()).toOption.map (fun s => (s.heads.verified, s.heads.attestedOrdinal))
          = some (1, 0) ∧
      receiptOf firstHead = some zeroReceipt ∧ ¬ Attests checksum.sha256 [firstHead] zeroReceipt := by
  decide +kernel

end AiiOs.Witness
