import AiiOs.Witness.Walk
import AiiOs.Witness.Coverage
import AiiOs.Ledger.Sealing

/-! internal/witness: the rule a receipt is held to before its head is minted
(`headRule`, `standsUnder`), against the walk of a later start. -/

namespace AiiOs.Witness
open Lib AiiOs.Ledger List Option

/-! ### The rule at the mint -/

def headRule (last : Option HeadReceipt) : HeadState := match last with
  | none => .init
  | some r =>
    { HeadState.init with
      prevOrdinal := r.ledgerOrdinal
      prevHash := r.ledgerHash
      identityID := r.identityID }

inductive ReadBackError
  | stream (e : RecordError)
  | noRecord (seq : Nat)
  deriving DecidableEq, Repr

/-- The hash of the first record with this number; a stream that ends before it may have failed. -/
def entryHashAt (sha256 : Bytes → Bytes) (source : List Event × Option RecordError) (seq : Nat) :
    Except ReadBackError Bytes :=
  match source.1.find? fun evt => evt.seq == seq with
  | some evt =>
    if entryHash sha256 evt = [] then .error (.noRecord seq) else .ok (entryHash sha256 evt)
  | none =>
    match source.2 with
    | some e => .error (.stream e)
    | none => .error (.noRecord seq)

def headPlace (last : Boundary) : Event where
  seq := last.seq + 1
  prev := last.hash
  timestamp := []
  type := eventSystemWitnessed
  ring := 0
  content := []
  payload := []
  sig := []
  sealed := false
  closing := false
  container := .none

inductive StandsError
  | readBack (ordinal : Int) (e : ReadBackError)
  | cannotStand (e : HeadError)
  deriving DecidableEq, Repr

/-- A receipt may be minted under a key that is not known here; one whose record does
not read back is refused for that. -/
def standsUnder (p : Primitives) (keys : Keys) (heads : HeadState)
    (source : List Event × Option RecordError) (last : Boundary) (r : HeadReceipt) :
    Except StandsError Unit :=
  let hashAt seq := (entryHashAt p.sha256 source seq).toOption
  match (verifyReceipt p keys heads (headPlace last) hashAt r).2 with
  | none => .ok ()
  | some e =>
    match e, entryHashAt p.sha256 source r.ledgerOrdinal.toNat with
    | .hashNotAtHand .., .error readErr => .error (.readBack r.ledgerOrdinal readErr)
    | e, _ => if e.isKeyUnknown then .ok () else .error (.cannotStand e)

/-- The head attests the record right before it. A segment is closed by such a head only. -/
def onTime (head : Event) (r : HeadReceipt) : Bool :=
  0 ≤ r.ledgerOrdinal ∧ (head.seq : Int) = r.ledgerOrdinal + 1 ∧ head.prev = r.ledgerHash

def endOf (sha256 : Bytes → Bytes) (record : List Event) : Boundary :=
  ⟨(record.getLast?.map Event.seq).getD 0, lastHash sha256 record⟩

variable {e : HeadError}

section
variable {p : Primitives} {keys : Keys} {heads : HeadState} {source : List Event × Option RecordError}
  {last : Boundary} {r : HeadReceipt}

theorem standsUnder_eq_ok : standsUnder p keys heads source last r = .ok () ↔
    ∀ e, (verifyReceipt p keys heads (headPlace last)
      (fun seq => (entryHashAt p.sha256 source seq).toOption) r).2 = some e → e.isKeyUnknown := by
  rw [standsUnder]
  split
  · rename_i herr
    simp [herr]
  · rename_i e herr
    rw [herr]
    split
    · simp [HeadError.isKeyUnknown]
    · rename_i e _ _ _
      by_cases hk : e.isKeyUnknown
      · simp
      · simp

theorem HeadError.ofKey_of_isKeyUnknown (h : e.isKeyUnknown) : e.ofKey := by
  cases e with
  | keyUnknown => rfl
  | _ => cases h

variable {n : Nat} {km : WitnessKeyMaterial}

theorem verifyHead_receipt {evt : Event} {hashAt : Nat → Option Bytes} (hr : receiptOf evt = some r)
    {t : HeadState} {err : Option HeadError} (hver : verifyHead p keys heads evt hashAt = (t, n, err)) :
    (verifyReceipt p keys heads evt hashAt r).2 = err := by
  rw [receiptOf] at hr
  by_cases ht : evt.type = eventSystemWitnessed
  · rw [if_neg (not_not_intro ht)] at hr
    rw [verifyHead, if_neg (not_not_intro ht)] at hver
    split at hr
    · rename_i r' hcar
      cases hr
      rw [hcar] at hver
      cases hver
      rfl
    · cases hr
  · rw [if_pos ht] at hr
    cases hr

theorem continues_of_standsUnder (h : standsUnder p keys heads source last r = .ok ()) :
    Continues heads (headPlace last) (fun seq => (entryHashAt p.sha256 source seq).toOption) r :=
  continues_iff.mpr fun e he => HeadError.ofKey_of_isKeyUnknown (standsUnder_eq_ok.mp h e he)

theorem checkSignature_seq {m : Nat} (h : checkSignature p m km r = .ok ()) :
    checkSignature p n km r = .ok () := by
  rw [checkSignature] at h ⊢
  split at h
  · cases h
  · split_ifs at h with hb ha
    rw [if_neg hb, if_neg ha]
    split at h
    · cases h
    · split at h
      · cases h
      · split_ifs at h with hs
        rw [if_pos hs]

theorem checkSignature_of_standsUnder (h : standsUnder p keys heads source last r = .ok ())
    (hkey : keys r.witnessKeyID = some km) (n : Nat) :
    checkSignature p n km r = .ok () := by
  have hone := standsUnder_eq_ok.mp h
  rw [(verifyReceipt_of_continues (continues_of_standsUnder h)).2, hkey] at hone
  dsimp only at hone
  cases hs : checkSignature p (headPlace last).seq km r with
  | ok u => exact checkSignature_seq hs
  | error e =>
    have hk := hone e (by rw [hs])
    rw [(checkSignature_eq_error hs).2] at hk
    cases hk

end

/-! ### The same record at a later start -/

theorem lastReceipt_map_bare (record : List Event) : lastReceipt (record.map bare) = lastReceipt record := by
  rw [lastReceipt, filterMap_map]
  rfl

theorem lastHash_map_bare (sha256 : Bytes → Bytes) (record : List Event) :
    lastHash sha256 (record.map bare) = lastHash sha256 record := by
  rw [lastHash, getLast?_map, Option.map_map]
  rfl

variable {record : List Event} {sha256 : Bytes → Bytes} {more : List Event}

theorem lastReceipt_append_of_none (h : ∀ e ∈ more, receiptOf e = none) :
    lastReceipt (record ++ more) = lastReceipt record := by
  rw [lastReceipt, filterMap_append, filterMap_eq_nil_iff.mpr h, append_nil, lastReceipt]

variable {err : Option RecordError} {n : Nat} {hash : Bytes}

theorem entryHashAt_toOption (h : Chained sha256 0 [] record)
    (hat : (entryHashAt sha256 (record, err) n).toOption = some hash) :
    0 < n ∧ (record[n - 1]?).map (entryHash sha256) = some hash := by
  rw [entryHashAt] at hat
  split at hat
  · rename_i evt hfind
    obtain ⟨i, hi⟩ := mem_iff_getElem?.mp (mem_of_find?_eq_some hfind)
    have hseq : evt.seq = n := by simpa using find?_some hfind
    have hn := h.seq_getElem? hi
    obtain rfl : i = n - 1 := by omega
    refine ⟨by omega, ?_⟩
    split_ifs at hat
    · cases hat
    · rw [hi]
      exact hat
  · split at hat
    · cases hat
    · cases hat

theorem endOf_eq (h : Chained sha256 0 [] record) :
    endOf sha256 record = ⟨record.length, lastHash sha256 record⟩ := by
  rw [endOf, Boundary.mk.injEq]
  refine ⟨?_, rfl⟩
  rw [getLast?_eq_getElem?]
  cases he : record[record.length - 1]? with
  | none =>
    rw [List.getElem?_eq_none_iff] at he
    simp only [map_none, getD_none]
    omega
  | some e =>
    have hlt := (List.getElem?_eq_some_iff.mp he).1
    have hseq := h.seq_getElem? he
    simp only [map_some, getD_some]
    omega

theorem lastHash_eq (hne : record ≠ []) :
    (record[record.length - 1]?).map (entryHash sha256) = some (lastHash sha256 record) := by
  rw [← getLast?_eq_getElem?, lastHash, getLast?_eq_getLast_of_ne_nil hne]
  rfl

theorem headRule_chain (last : Option HeadReceipt) :
    (headRule last).chain = (last.map HeadReceipt.chain).getD chainStart := by
  cases last <;> rfl

section
variable {p : Primitives} {keys : Keys} {pubKey : Bytes} {ν ψ : Type} {visit : ν → Event → Except ψ ν}

variable {record : List Event} {head : Event}

theorem Walked.hashAt {s : ChainState HeadState ν} (h : Walked p (record ++ more) s)
    (hn : s.heads.chainAt < n) (hat : (record[n - 1]?).map (entryHash p.sha256) = some hash) :
        s.since.hashAt n = some hash := by
  have hlt : n - 1 < record.length := by
    by_contra hge
    rw [getElem?_eq_none (not_lt.mp hge)] at hat
    cases hat
  rw [h.window.hashAt hn, getElem?_append_left hlt, hat]

theorem checkPlace_later (hne : record ≠ []) {h : HeadState} {r : HeadReceipt}
    {s s' : ChainState HeadState ν} (hmid : Walked p record s')
    (hend : Walked p (record ++ more) s) (hord : s.heads.prevOrdinal = s'.heads.prevOrdinal)
    (hrule : h.prevOrdinal = s'.heads.prevOrdinal) {hashAt : Nat → Option Bytes}
    (hread : ∀ n hash, hashAt n = some hash → 0 < n ∧ (record[n - 1]?).map (entryHash p.sha256) = some hash)
    (hplace : checkPlace h (headPlace ⟨record.length, lastHash p.sha256 record⟩) hashAt r = .ok ())
    (hseq : head.seq = (record ++ more).length + 1) (hprev : head.prev = lastHash p.sha256 (record ++ more))
    (hseal : head.closing → onTime head r) :
    checkPlace s.heads head s.since.hashAt r = .ok () := by
  have hpos := length_pos_iff.mpr hne
  have hbehind := hmid.behind
  rw [length_append] at hseq
  have hopen : r.ledgerOrdinal < record.length + more.length → head.closing = false := by
    intro hlt
    by_contra hclosing
    have hon := hseal (by simpa using hclosing)
    simp only [onTime, decide_eq_true_eq] at hon
    omega
  rw [checkPlace_eq_ok]
  -- on time before the records that were added, or late already
  rcases checkPlace_eq_ok.mp hplace with ⟨hon, hhash⟩ | ⟨hon, -, hlow, hhigh, hhash⟩
  · have hordinal : r.ledgerOrdinal = record.length := by
      have := hon.2
      simp only [headPlace] at this
      omega
    cases more with
    | nil =>
      rw [append_nil] at hprev
      refine .inl ⟨⟨by omega, ?_⟩, by rw [hhash, hprev]; rfl⟩
      rw [hordinal, hseq]
      simp
    | cons evt more =>
      rw [length_cons] at hseq hopen
      refine .inr ⟨by omega, hopen (by omega), by omega, by omega, ?_⟩
      refine hend.hashAt ?_ ?_
      · rw [HeadState.chainAt]
        omega
      · rw [hordinal, Int.toNat_natCast, lastHash_eq hne, hhash]
        rfl
  · have hlate : r.ledgerOrdinal < record.length := by
      simp only [headPlace] at hon hhigh
      omega
    obtain ⟨hposition, hat⟩ := hread _ _ hhash
    refine .inr ⟨by omega, hopen (by omega), by omega, by omega, hend.hashAt ?_ hat⟩
    rw [HeadState.chainAt]
    omega

theorem verifyChain_witnessHead {rest : List Event} {v : ν} {f : VerifyFailure HeadError}
    (hseq : head.seq = record.length + 1)
    (hboot : verifyChain p pubKey (some (headVerifier p keys)) visit (record ++ head :: rest,
      err) .init v = .error (.failure f))
    (hat : f.seq = head.seq) (hreq : f.requirement = .witnessHead e) :
    ∃ s, record.foldlM (verifyRecord p pubKey (some (headVerifier p keys)) visit) (.init .init v) = .ok s ∧
      verifyRecord p pubKey (some (headVerifier p keys)) visit s head = .error (.failure f) := by
  rw [verifyChain, bind_eq_error] at hboot
  rcases hboot with hfold | ⟨s, -, hend⟩
  · obtain ⟨passed, evt, others, s, hsplit, hpassed, hevt⟩ := foldlM_eq_error hfold
    obtain ⟨hnext, hf, -⟩ := verifyRecord_witnessHead hevt hreq
    have hlen : record.length = passed.length := by
      have := ((Walked.init v).run hpassed).seq
      rw [nil_append] at this
      omega
    obtain ⟨rfl, hrest⟩ := append_inj hsplit hlen
    cases hrest
    exact ⟨s, hpassed, hevt⟩
  · split at hend
    · cases hend
    · cases hend
      cases hreq

/-- A receipt that stood at the mint is refused by no later start for its place, its
identity or its part in the chain: only for a key that was not known at the mint. -/
theorem minted_head_refused_for_key {keys' : Keys} {record record' more rest : List Event} {head : Event}
    {r : HeadReceipt} {readErr err : Option RecordError} {v : ν} {f : VerifyFailure HeadError}
    {e : HeadError} (hne : record ≠ [])
    (hstands : standsUnder p keys (headRule (lastReceipt record)) (record, readErr)
      (endOf p.sha256 record) r = .ok ())
    (hsame : record'.map bare = record.map bare) (hmore : ∀ evt ∈ more, receiptOf evt = none)
    (hhead : receiptOf head = some r) (hseq : head.seq = (record' ++ more).length + 1)
    (hseal : head.closing → onTime head r)
    (hkeys : ∀ keyID km, keys keyID = some km → keys' keyID = some km)
    (hboot : verifyChain p pubKey (some (headVerifier p keys')) visit
      (record' ++ more ++ head :: rest, err) .init v = .error (.failure f))
    (hat : f.seq = head.seq) (hreq : f.requirement = .witnessHead e) :
    e.ofKey ∧ keys r.witnessKeyID = none ∧ (keys' r.witnessKeyID = none → e.isKeyUnknown) := by
  obtain ⟨s, hwalk, hfail⟩ := verifyChain_witnessHead hseq hboot hat hreq
  obtain ⟨s', hmid, hrest⟩ := foldlM_append_eq_ok.mp hwalk
  have hwalked : Walked p record' s' := (Walked.init v).run hmid
  have hwalkedAll := hwalked.run hrest
  obtain ⟨-, -, hprev, htype, t, n, hver⟩ := verifyRecord_witnessHead hfail hreq
  -- what the mint saw of the record is what the walk meets
  have hchained' : Chained p.sha256 0 [] record' := chained_of_foldlM hmid
  have hchained : Chained p.sha256 0 [] record :=
    chained_map_bare.mp (hsame ▸ chained_map_bare.mpr hchained')
  have hlen : record'.length = record.length := by simpa using congrArg List.length hsame
  have hlast : lastReceipt record = lastReceipt record' := by
    rw [← lastReceipt_map_bare, ← hsame, lastReceipt_map_bare]
  have hhash : lastHash p.sha256 record = lastHash p.sha256 record' := by
    rw [← lastHash_map_bare, ← hsame, lastHash_map_bare]
  have hindex : ∀ i : Nat, (record[i]?).map (entryHash p.sha256) =
      (record'[i]?).map (entryHash p.sha256) := by
    intro i
    have := congrArg (fun l => (l[i]?).map (entryHash p.sha256)) hsame
    simp only [getElem?_map, Option.map_map] at this
    exact this.symm
  have hmint := continues_of_standsUnder hstands
  rw [endOf_eq hchained, hhash, ← hlen] at hmint
  have hchain : (headRule (lastReceipt record)).chain = s'.heads.chain := by
    rw [headRule_chain, hlast, hwalked.chain]
  have hsince : s.heads.chain = s'.heads.chain := by
    rw [hwalkedAll.chain, lastReceipt_append_of_none hmore, hwalked.chain]
  simp only [HeadState.chain, Prod.mk.injEq] at hchain hsince
  obtain ⟨hordinal, hprevHash, hidentity⟩ := hchain
  obtain ⟨hordinal', hprevHash', hidentity'⟩ := hsince
  have hcont : Continues s.heads head s.since.hashAt r := by
    refine ⟨?_, ?_, ?_, ?_⟩
    · refine checkPlace_later ?_ hwalked hwalkedAll hordinal' hordinal ?_ hmint.place hseq
        (hprev.trans hwalkedAll.prev) hseal
      · rintro rfl
        exact hne (length_eq_zero_iff.mp hlen.symm)
      · intro n hash hn
        rw [← hindex]
        exact entryHashAt_toOption hchained hn
    · rw [hidentity', ← hidentity]
      exact hmint.identity
    · rw [hordinal', ← hordinal, hmint.ordinal]
    · rw [hprevHash', ← hprevHash, hmint.hash]
  have herr := verifyHead_receipt hhead hver
  rw [(verifyReceipt_of_continues hcont).2] at herr
  cases hkey' : keys' r.witnessKeyID with
  | none =>
    rw [hkey'] at herr
    cases herr
    refine ⟨rfl, ?_, fun _ => rfl⟩
    cases hkey : keys r.witnessKeyID with
    | none => rfl
    | some km =>
      rw [hkeys _ _ hkey] at hkey'
      cases hkey'
  | some km' =>
    rw [hkey'] at herr
    dsimp only at herr
    split at herr
    · rename_i e' hsig
      cases herr
      refine ⟨(checkSignature_eq_error hsig).1, ?_, nofun⟩
      cases hkey : keys r.witnessKeyID with
      | none => rfl
      | some km =>
        rw [hkeys _ _ hkey] at hkey'
        cases hkey'
        rw [checkSignature_of_standsUnder hstands hkey] at hsig
        cases hsig
    · cases herr

end

/-! ### Two records -/

def headRefusal (keys : Keys) (record : List Event) : Option (Nat × HeadError) :=
  match verifyChain checksum identityKey (some (headVerifier checksum keys)) noVisit (record, none)
      .init () with
  | .error (.failure f) =>
    match f.requirement with
    | .witnessHead e => some (f.seq, e)
    | _ => none
  | _ => none

theorem exists_of_headRefusal {keys : Keys} (h : headRefusal keys record = some (n, e)) :
    ∃ f, verifyChain checksum identityKey (some (headVerifier checksum keys)) noVisit (record, none)
      .init () = .error (.failure f) ∧ f.seq = n ∧ f.requirement = .witnessHead e := by
  rw [headRefusal] at h
  split at h
  · rename_i f hf
    split at h
    · rename_i e' he
      cases h
      exact ⟨f, hf, rfl, he⟩
    · cases h
  · cases h

def unsignedReceipt : HeadReceipt := { issuedReceipt with witnessSigB64 := [] }

/-- The head is not written before another record. -/
def betweenRecord : Event :=
  signRecord { openingRecord with seq := 2, prev := entryHash checksum.sha256 openingRecord }

def lateHead : Event := signRecord { headRecord (receiptPayload unsignedReceipt) with
    seq := 3, prev := entryHash checksum.sha256 betweenRecord }

def keysAtMint : Keys := fun keyID => if keyID = bytesOf "j" then some witnessKey else none

def keysLater : Keys := fun keyID => if keyID = bytesOf "j" then some witnessKey else oneKey keyID

/-- The key of a receipt without a signature becomes known behind the mint. -/
theorem unsignedReceipt_refused_for_key :
    headRefusal keysLater ([signRecord openingRecord] ++ [betweenRecord] ++ [lateHead]) =
        some (3, .signature 3 (bytesOf "k")) ∧
      (HeadError.signature 3 (bytesOf "k")).ofKey ∧ keysAtMint unsignedReceipt.witnessKeyID = none ∧
      (keysLater unsignedReceipt.witnessKeyID = none →
      (HeadError.signature 3 (bytesOf "k")).isKeyUnknown) := by
  have hrefusal : headRefusal keysLater ([signRecord openingRecord] ++ [betweenRecord] ++ [lateHead]) =
      some (3, .signature 3 (bytesOf "k")) := by decide +kernel
  have hstands : standsUnder checksum keysAtMint (headRule (lastReceipt [signRecord openingRecord]))
      ([signRecord openingRecord], none) (endOf checksum.sha256 [signRecord openingRecord])
        unsignedReceipt = .ok () := by decide +kernel
  have hkeys : ∀ keyID km, keysAtMint keyID = some km → keysLater keyID = some km := by
    intro keyID km hkm
    unfold keysAtMint at hkm
    split_ifs at hkm with hj
    rw [keysLater, if_pos hj, hkm]
  obtain ⟨f, hboot, hat, hreq⟩ := exists_of_headRefusal hrefusal
  exact ⟨hrefusal, minted_head_refused_for_key (cons_ne_nil _ _) hstands rfl
    (forall_mem_singleton.mpr (by decide +kernel)) (by decide +kernel) (by decide +kernel) (by decide +kernel)
    hkeys hboot (by rw [hat]; decide +kernel) hreq⟩

def receiptOfNothing : HeadReceipt := { issuedReceipt with ledgerOrdinal := 0, ledgerHash := [] }

theorem receiptOfNothing_refused :
    standsUnder checksum (fun _ => none) (headRule (lastReceipt [])) ([], none)
        (endOf checksum.sha256 []) receiptOfNothing = .ok () ∧
      receiptOf (signRecord openingRecord) = none ∧
      receiptOf (headRecord (receiptPayload receiptOfNothing)) = some receiptOfNothing ∧
      headRefusal (fun _ => none)
        ([signRecord openingRecord] ++ [headRecord (receiptPayload receiptOfNothing)]) =
          some (2, .hashNotAtHand 2 0) ∧
      (HeadError.hashNotAtHand 2 0).ofKey = false := by
  decide +kernel

end AiiOs.Witness
