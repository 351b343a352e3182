import AiiOs.Witness.HeadVerify
import AiiOs.Ledger.Chain

/-! The state of the walk over a record: where the chain of receipts stands, and the
hashes that are kept behind it. -/

namespace AiiOs.Witness
open Lib AiiOs.Ledger List

/-! ### The chain of receipts -/

def receiptOf (evt : Event) : Option HeadReceipt := if evt.type ≠ eventSystemWitnessed then none
  else
    match readCarried evt with
    | .ok (.receipt r) => some r
    | _ => none

def lastReceipt (record : List Event) : Option HeadReceipt := (record.filterMap receiptOf).getLast?

def HeadState.chain (h : HeadState) : Int × Bytes × Bytes := (h.prevOrdinal, h.prevHash, h.identityID)

def HeadReceipt.chain (r : HeadReceipt) : Int × Bytes × Bytes := (r.ledgerOrdinal, r.ledgerHash, r.identityID)

structure Continues (h : HeadState) (evt : Event) (hashAt : Nat → Option Bytes) (r : HeadReceipt) :
    Prop where
  place : checkPlace h evt hashAt r = .ok ()
  identity : h.identityID = [] ∨ r.identityID = h.identityID
  ordinal : r.previousWitnessedLedgerOrdinal = h.prevOrdinal
  hash : r.previousWitnessedLedgerHash = h.prevHash

/-- An error about the key or the signature, not about where the receipt stands. -/
def HeadError.ofKey : HeadError → Bool
  | .keyUnknown .. | .witnessedAt .. | .beforeKey .. | .afterKey .. | .outsideEnvelope ..
  | .signatureEncoding .. | .signature .. => true
  | _ => false

theorem checkSignature_eq_error {p : Primitives} {seq : Nat} {km : WitnessKeyMaterial} {r : HeadReceipt}
    {e : HeadError} (h : checkSignature p seq km r = .error e) :
    e.ofKey ∧ e.isKeyUnknown = false := by
  rw [checkSignature] at h
  split at h
  · cases h
    exact ⟨rfl, rfl⟩
  split_ifs at h
  · cases h
    exact ⟨rfl, rfl⟩
  · cases h
    exact ⟨rfl, rfl⟩
  split at h
  · cases h
    exact ⟨rfl, rfl⟩
  split at h
  · cases h
    exact ⟨rfl, rfl⟩
  split_ifs at h
  cases h
  exact ⟨rfl, rfl⟩

section
variable {p : Primitives} {keys : Keys} {h : HeadState} {evt : Event} {hashAt : Nat → Option Bytes}
  {r : HeadReceipt}

theorem verifyReceipt_of_continues (hc : Continues h evt hashAt r) :
    (verifyReceipt p keys h evt hashAt r).1.chain = r.chain ∧
      (verifyReceipt p keys h evt hashAt r).2 = match keys r.witnessKeyID with
        | none => some (.keyUnknown evt.seq r.witnessKeyID)
        | some km =>
          match checkSignature p evt.seq km r with
          | .error e => some e
          | .ok () => none := by
  have hid : ¬ (h.identityID ≠ [] ∧ r.identityID ≠ h.identityID) := fun ⟨hne, hr⟩ => hc.identity.elim hne hr
  have hsame : (if h.identityID = [] then r.identityID else h.identityID) = r.identityID := by
    split_ifs with he
    · rfl
    · exact (hc.identity.resolve_left he).symm
  rw [verifyReceipt, hc.place]
  simp only [hid, hc.ordinal, hc.hash, ne_eq, hsame]
  cases keys r.witnessKeyID with
  | none => exact ⟨rfl, rfl⟩
  | some km =>
    simp only
    cases checkSignature p evt.seq km r with
    | error e => exact ⟨rfl, rfl⟩
    | ok u => exact ⟨rfl, rfl⟩

theorem verifyReceipt_of_not_continues (hc : ¬ Continues h evt hashAt r) :
    ∃ e, (verifyReceipt p keys h evt hashAt r).2 = some e ∧ e.ofKey = false := by
  rw [verifyReceipt]
  cases hplace : checkPlace h evt hashAt r with
  | error e =>
    refine ⟨e, rfl, ?_⟩
    rw [checkPlace] at hplace
    split_ifs at hplace
    · cases hplace
      rfl
    · cases hplace
      rfl
    · cases hplace
      rfl
    · split at hplace
      · cases hplace
        rfl
      · split_ifs at hplace
        cases hplace
        rfl
  | ok u =>
    by_cases hid : h.identityID ≠ [] ∧ r.identityID ≠ h.identityID
    · rw [if_pos hid]
      exact ⟨_, rfl, rfl⟩
    by_cases hcont : r.previousWitnessedLedgerOrdinal ≠ h.prevOrdinal ∨
      r.previousWitnessedLedgerHash ≠ h.prevHash
    · rw [if_neg hid, if_pos hcont]
      exact ⟨_, rfl, rfl⟩
    rw [not_or, not_not, not_not] at hcont
    refine absurd ⟨hplace, ?_, hcont.1, hcont.2⟩ hc
    by_cases he : h.identityID = []
    · exact .inl he
    · exact .inr (not_not.mp fun hr => hid ⟨he, hr⟩)

theorem continues_iff :
    Continues h evt hashAt r ↔ ∀ e, (verifyReceipt p keys h evt hashAt r).2 = some e → e.ofKey := by
  constructor
  · intro hc e he
    rw [(verifyReceipt_of_continues hc).2] at he
    split at he
    · cases he
      rfl
    · split at he
      · rename_i hs
        cases he
        exact (checkSignature_eq_error hs).1
      · cases he
  · intro hall
    by_contra hc
    have hex : ∃ e, (verifyReceipt p keys h evt hashAt r).2 = some e ∧ e.ofKey = false :=
      verifyReceipt_of_not_continues hc
    obtain ⟨e, he, hk⟩ := hex
    rw [hall e he] at hk
    cases hk

theorem readCarried_error {e : HeadError} (hcar : readCarried evt = .error e) : e.ofKey = false := by
  rw [readCarried] at hcar
  split at hcar
  · cases hcar
    rfl
  split_ifs at hcar
  · cases hcar
    rfl
  · split at hcar
    · cases hcar
      rfl
    · cases hcar

theorem verifyHead_passed (htype : evt.type = eventSystemWitnessed) {h' : HeadState} {n : Nat}
    {err : Option HeadError} (hv : verifyHead p keys h evt hashAt = (h', n, err))
    (herr : ∀ e, err = some e → e.ofKey) :
    n = h'.chainAt ∧ ((receiptOf evt = none ∧ h'.chain = h.chain) ∨
      ∃ r, receiptOf evt = some r ∧ Continues h evt hashAt r ∧ h'.chain = r.chain) := by
  rw [verifyHead, if_neg (not_not_intro htype)] at hv
  rw [receiptOf, if_neg (not_not_intro htype)]
  split at hv
  · rename_i e hcar
    cases hv
    have hk := herr e rfl
    rw [readCarried_error hcar] at hk
    cases hk
  · rename_i hcar
    cases hv
    rw [hcar]
    exact ⟨rfl, .inl ⟨rfl, rfl⟩⟩
  · rename_i r hcar
    cases hv
    rw [hcar]
    have hc := continues_iff.mpr herr
    exact ⟨rfl, .inr ⟨r, rfl, hc, (verifyReceipt_of_continues hc).1⟩⟩

end

/-! ### The hashes that are kept -/

/-- The window holds the records behind the first `k`, and no other. -/
structure Window (sha256 : Bytes → Bytes) (record : List Event) (k : Nat) (w : RecordsSince) : Prop where
  le : k ≤ record.length
  sums : w.sums = (record.drop k).map fun e => sha256 (entryBytes e)
  first : w.sums ≠ [] → w.first = k + 1

section
variable {sha256 : Bytes → Bytes} {record : List Event} {k : Nat} {w : RecordsSince}

section
variable (h : Window sha256 record k w)
include h

theorem Window.eq_length (hempty : w.sums = []) : k = record.length := by
  have hdrop := h.sums
  rw [hempty, eq_comm, map_eq_nil_iff, drop_eq_nil_iff] at hdrop
  exact le_antisymm h.le hdrop

theorem Window.hashAt {n : Nat} (hn : k < n) : w.hashAt n = (record[n - 1]?).map (entryHash sha256) := by
  by_cases hempty : w.sums = []
  · have hlen := h.eq_length hempty
    have hnone : record[n - 1]? = none := getElem?_eq_none (by omega)
    rw [RecordsSince.hashAt, hempty, hnone]
    split_ifs <;> rfl
  · have hindex : k + (n - (k + 1)) = n - 1 := by omega
    rw [RecordsSince.hashAt, h.first hempty, if_neg (by omega), h.sums, getElem?_map,
      getElem?_drop, hindex, Option.map_map]
    rfl

theorem Window.keep (evt : Event) :
    Window sha256 (record ++ [evt]) k (w.keep (record.length + 1) (sha256 (entryBytes evt))) where
  le := by
    rw [length_append]
    exact h.le.trans (Nat.le_add_right _ _)
  sums := by
    rw [RecordsSince.keep, h.sums, drop_append_of_le_length h.le, map_append]
    rfl
  first _ := by
    rw [RecordsSince.keep]
    split_ifs with hempty
    · rw [h.eq_length hempty]
    · exact h.first hempty

theorem Window.forget_self : w.forget k = w := by
  rw [RecordsSince.forget, if_pos]
  by_cases hempty : w.sums = []
  · exact .inl hempty
  · exact .inr (by rw [h.first hempty]; omega)

theorem Window.forget {n : Nat} (hn : k ≤ n) (hle : n ≤ record.length) :
    Window sha256 record n (w.forget n) := by
  by_cases hempty : w.sums = []
  · obtain rfl : k = n := by
      have := h.eq_length hempty
      omega
    rwa [RecordsSince.forget, if_pos (.inl hempty)]
  have hfirst := h.first hempty
  by_cases hlt : n < w.first
  · obtain rfl : k = n := by omega
    rwa [RecordsSince.forget, if_pos (.inr hlt)]
  have hlen : w.sums.length = record.length - k := by rw [h.sums, length_map, length_drop]
  have hcount : n - w.first + 1 = n - k := by omega
  rw [RecordsSince.forget, if_neg (not_or.mpr ⟨hempty, hlt⟩), hcount]
  split_ifs with hmore
  · refine ⟨hle, ?_, fun _ => rfl⟩
    have hindex : k + (n - k) = n := by omega
    rw [h.sums, ← map_drop, drop_drop, hindex]
  · refine ⟨hle, ?_, fun hne => absurd rfl hne⟩
    have hall : record.length ≤ n := by omega
    rw [drop_eq_nil_of_le hall]
    rfl

end

end

/-! ### The walk -/

section
variable {p : Primitives} {keys : Keys} {pubKey : Bytes} {ν ψ : Type} {visit : ν → Event → Except ψ ν}

def lastHash (sha256 : Bytes → Bytes) (record : List Event) : Bytes :=
  (record.getLast?.map (entryHash sha256)).getD []

def chainStart : Int × Bytes × Bytes := HeadState.init.chain

structure Walked (p : Primitives) (record : List Event) (s : ChainState HeadState ν) : Prop where
  seq : s.expectedSeq = record.length
  prev : s.expectedPrev = lastHash p.sha256 record
  chain : s.heads.chain = ((lastReceipt record).map HeadReceipt.chain).getD chainStart
  start : -1 ≤ s.heads.prevOrdinal
  behind : s.heads.prevOrdinal < record.length
  window : Window p.sha256 record s.heads.chainAt s.since

variable {evt : Event} {τ ε : Type} {hv : HeadVerifier τ ε} {s s' : ChainState HeadState ν}

theorem checkPlace_eq_ok {h : HeadState} {hashAt : Nat → Option Bytes} {r : HeadReceipt} :
    checkPlace h evt hashAt r = .ok () ↔
      (0 < evt.seq ∧ r.ledgerOrdinal = evt.seq - 1) ∧ r.ledgerHash = evt.prev ∨
        ¬ (0 < evt.seq ∧ r.ledgerOrdinal = evt.seq - 1) ∧ evt.closing = false ∧
          h.prevOrdinal < r.ledgerOrdinal ∧ r.ledgerOrdinal < evt.seq ∧
            hashAt r.ledgerOrdinal.toNat = some r.ledgerHash := by
  rw [checkPlace]
  by_cases hon : 0 < evt.seq ∧ r.ledgerOrdinal = evt.seq - 1
  · by_cases hh : r.ledgerHash = evt.prev <;> simp [hon]
  rw [if_neg hon]
  cases hc : evt.closing with
  | true => simp [hon]
  | false =>
    by_cases hr : r.ledgerOrdinal ≤ h.prevOrdinal ∨ evt.seq ≤ r.ledgerOrdinal
    · rw [if_neg (by simp), if_pos hr]
      have hno : ¬ (h.prevOrdinal < r.ledgerOrdinal ∧ r.ledgerOrdinal < evt.seq) := by omega
      simp only [reduceCtorEq, hon, false_and, false_or, not_false_eq_true, true_and, false_iff]
      exact fun hx => hno ⟨hx.1, hx.2.1⟩
    · rw [if_neg hr]
      have hyes : h.prevOrdinal < r.ledgerOrdinal ∧ r.ledgerOrdinal < evt.seq := by omega
      cases hashAt r.ledgerOrdinal.toNat with
      | none => simp [hon]
      | some hash =>
        by_cases hh : r.ledgerHash = hash
        · simp [hon, hh, hyes]
        · simp [hon, hh, Ne.symm hh]

theorem proveHead_some {s s' : ChainState τ ν} (h : proveHead (ψ := ψ) (some hv) s evt = .ok s') :
    evt.type ≠ eventSystemWitnessed ∧ s' = s ∨ evt.type = eventSystemWitnessed ∧ ∃ t attested err,
        hv.verifyHead s.heads evt s.since.hashAt = (t, attested, err) ∧
          (∀ e, err = some e → hv.keyUnknown e) ∧
          s' = { s with heads := t, since := s.since.forget attested } := by
  unfold proveHead at h
  dsimp only at h
  by_cases ht : evt.type = eventSystemWitnessed
  · rw [if_neg (not_not_intro ht)] at h
    refine .inr ⟨ht, ?_⟩
    split at h
    · rename_i t attested hr
      cases h
      exact ⟨t, attested, none, hr, nofun, rfl⟩
    · rename_i t attested e hr
      split_ifs at h with hk
      cases h
      refine ⟨t, attested, some e, hr, ?_, rfl⟩
      rintro _ ⟨⟩
      exact hk.2
  · rw [if_pos ht] at h
    cases h
    exact .inl ⟨ht, rfl⟩

theorem verifyRecord_heads {s s' : ChainState τ ν}
    (h : verifyRecord p pubKey (some hv) visit s evt = .ok s') :
    evt.type ≠ eventSystemWitnessed ∧ s'.heads = s.heads ∧
        s'.since = s.since.keep evt.seq (p.sha256 (entryBytes evt)) ∨
      evt.type = eventSystemWitnessed ∧ ∃ attested err,
        hv.verifyHead s.heads evt s.since.hashAt = (s'.heads, attested, err) ∧
          (∀ e, err = some e → hv.keyUnknown e) ∧
          s'.since = (s.since.forget attested).keep evt.seq (p.sha256 (entryBytes evt)) := by
  have ha := verifyRecord_accepted h
  rw [verifyRecord] at h
  simp only [ha.seq, ha.prev, ha.content, ne_eq] at h
  obtain ⟨s₁, h₁, hrest⟩ := bind_eq_ok.mp h
  obtain ⟨s₂, h₂, hlast⟩ := bind_eq_ok.mp hrest
  obtain ⟨-, b, rfl⟩ := proveRecord_eq_ok h₁
  split at hlast
  · cases hlast
  cases hlast
  rw [← ha.seq]
  rcases proveHead_some h₂ with ⟨ht, rfl⟩ | ⟨ht, t, attested, err, hr, herr, rfl⟩
  · exact .inl ⟨ht, rfl, rfl⟩
  · exact .inr ⟨ht, attested, err, hr, herr, rfl⟩

theorem verifyRecord_witnessHead {s : ChainState τ ν}
    {f : VerifyFailure ε} {e : ε} (h : verifyRecord p pubKey (some hv) visit s evt = .error (.failure f))
    (hf : f.requirement = .witnessHead e) :
    evt.seq = s.expectedSeq + 1 ∧ f.seq = evt.seq ∧ evt.prev = s.expectedPrev ∧
      evt.type = eventSystemWitnessed ∧
      ∃ t attested, hv.verifyHead s.heads evt s.since.hashAt = (t, attested, some e) := by
  rw [verifyRecord] at h
  split at h
  · cases h
    cases hf
  rename_i hseq
  split at h
  · cases h
    cases hf
  rename_i hprev
  split at h
  · cases h
    cases hf
  rw [not_not] at hseq hprev
  rcases bind_eq_error.mp h with hrec | ⟨s₁, hrec, hrest⟩
  · rw [proveRecord] at hrec
    split_ifs at hrec
    · cases hrec
      cases hf
    · split at hrec
      · cases hrec
        cases hf
      · cases hrec
    · cases hrec
      cases hf
  obtain ⟨-, b, rfl⟩ := proveRecord_eq_ok hrec
  rcases bind_eq_error.mp hrest with hhead | ⟨s₂, -, hlast⟩
  · rw [proveHead] at hhead
    by_cases ht : evt.type = eventSystemWitnessed
    · rw [if_neg (not_not_intro ht)] at hhead
      split at hhead
      · cases hhead
      · rename_i t attested e' hr
        split_ifs at hhead
        cases hhead
        cases hf
        exact ⟨hseq, rfl, hprev, ht, t, attested, hr⟩
    · rw [if_pos ht] at hhead
      cases hhead
  · split at hlast
    · cases hlast
    · cases hlast

theorem lastReceipt_concat (record : List Event) (evt : Event) :
    lastReceipt (record ++ [evt]) = (receiptOf evt).or (lastReceipt record) := by
  rw [lastReceipt, lastReceipt]
  cases h : receiptOf evt <;> simp [h]

theorem Walked.step {record : List Event} {evt : Event}
    (h : Walked p record s) (hv : verifyRecord p pubKey (some (headVerifier p keys)) visit s evt = .ok s') :
    Walked p (record ++ [evt]) s' := by
  have ha := verifyRecord_accepted hv
  have hseq : evt.seq = record.length + 1 := by rw [ha.seq, h.seq]
  have hlen : s'.expectedSeq = (record ++ [evt]).length := by simp [ha.expectedSeq, h.seq]
  have hprev : s'.expectedPrev = lastHash p.sha256 (record ++ [evt]) := by simp [ha.expectedPrev, lastHash]
  -- a record that moves no receipt leaves the chain and adds to the window
  have same : receiptOf evt = none → s'.heads.chain = s.heads.chain →
      s'.since = s.since.keep evt.seq (p.sha256 (entryBytes evt)) → Walked p (record ++ [evt]) s' := by
    intro hnone hchain hsince
    have hord : s'.heads.prevOrdinal = s.heads.prevOrdinal := congrArg Prod.fst hchain
    refine ⟨hlen, hprev, ?_, hord ▸ h.start, ?_, ?_⟩
    · rw [hchain, h.chain, lastReceipt_concat, hnone, Option.none_or]
    · have := h.behind
      rw [length_append]
      omega
    · rw [hsince, hseq, HeadState.chainAt, hord]
      exact h.window.keep evt
  rcases verifyRecord_heads hv with ⟨ht, hheads, hsince⟩ | ⟨ht, attested, err, hhead, herr, hsince⟩
  · exact same (if_pos ht) (by rw [hheads]) hsince
  have hkey : ∀ e, err = some e → e.ofKey := fun e he => by
    have hk := herr e he
    cases e <;> first | rfl | cases hk
  obtain ⟨rfl, ⟨hnone, hchain⟩ | ⟨r, hr, hc, hchain⟩⟩ := verifyHead_passed ht hhead hkey
  · -- a footnote leaves the chain where it is, so there is nothing new to forget
    have hat : s'.heads.chainAt = s.heads.chainAt := congrArg (·.1.toNat) hchain
    rw [hat, h.window.forget_self] at hsince
    exact same hnone hchain hsince
  · have hord : s'.heads.prevOrdinal = r.ledgerOrdinal := congrArg Prod.fst hchain
    have hstart := h.start
    have hbehind := h.behind
    have hwithin : s.heads.prevOrdinal ≤ r.ledgerOrdinal ∧ 0 ≤ r.ledgerOrdinal ∧
        r.ledgerOrdinal ≤ record.length := by
      rcases checkPlace_eq_ok.mp hc.place with ⟨hon, -⟩ | ⟨-, -, hlt, hle, -⟩ <;> omega
    refine ⟨hlen, hprev, ?_, by omega, ?_, ?_⟩
    · rw [hchain, lastReceipt_concat, hr]
      rfl
    · rw [length_append, length_singleton]
      omega
    · rw [hsince, hseq]
      refine (h.window.forget ?_ ?_).keep evt
      · rw [HeadState.chainAt, HeadState.chainAt]
        omega
      · rw [HeadState.chainAt]
        omega

theorem Walked.run {record more : List Event} (h : Walked p record s)
    (hv : more.foldlM (verifyRecord p pubKey (some (headVerifier p keys)) visit) s = .ok s') :
    Walked p (record ++ more) s' := by
  induction more generalizing record s with
  | nil =>
    cases hv
    rwa [append_nil]
  | cons evt more ih =>
    obtain ⟨m, hm, hv⟩ := foldlM_cons_eq_ok.mp hv
    rw [append_cons]
    exact ih (h.step hm) hv

theorem Walked.init (v : ν) : Walked p [] (ChainState.init HeadState.init v) where
  seq := rfl
  prev := rfl
  chain := rfl
  start := le_refl _
  behind := Int.negSucc_lt_zero 0
  window := ⟨Nat.le_refl _, rfl, fun h => absurd rfl h⟩

end

end AiiOs.Witness
