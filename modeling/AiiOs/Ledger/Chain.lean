import AiiOs.Ledger.Verify
import AiiOs.Ledger.Reading
import AiiOs.Lib.Fold
import Mathlib.Data.List.Range

/-! What a record accepted by `verifyChain` has been shown to satisfy. -/

namespace AiiOs.Ledger
open Lib List

/-- Records numbered and linked one after the other, from behind record `n`. -/
def Chained (sha256 : Bytes → Bytes) : Nat → Bytes → List Event → Prop
  | _, _, [] => True
  | n, prev, e :: es =>
    e.seq = n + 1 ∧ e.prev = prev ∧ Chained sha256 (n + 1) (entryHash sha256 e) es

variable {sha256 : Bytes → Bytes} {prev : Bytes} {es : List Event}

variable {n : Nat}

section
variable (h : Chained sha256 n prev es)
include h

theorem Chained.seqs : es.map Event.seq = List.range' (n + 1) es.length := by
  induction es generalizing n prev with
  | nil => rfl
  | cons e es ih =>
    obtain ⟨hseq, -, h⟩ := h
    rw [map_cons, hseq, ih h, length_cons, range'_succ]

theorem Chained.seq_getElem? {i : Nat} {e : Event} (he : es[i]? = some e) : e.seq = n + 1 + i := by
  have hi := congrArg (·[i]?) h.seqs
  have hlt := (List.getElem?_eq_some_iff.mp he).1
  simp only [getElem?_map, he, Option.map_some, getElem?_range' hlt, Option.some.injEq] at hi
  omega

theorem Chained.pairwise : es.Pairwise fun a b => a.seq < b.seq := by
  rw [← pairwise_map (f := Event.seq), h.seqs]
  exact pairwise_lt_range'

end

section
variable {τ ε ν ψ : Type} {p : Primitives} {pubKey : Bytes} {heads : Option (HeadVerifier τ ε)}
  {visit : ν → Event → Except ψ ν}

structure Accepted (p : Primitives) (pubKey : Bytes) (heads : Option (HeadVerifier τ ε))
    (visit : ν → Event → Except ψ ν) (s : ChainState τ ν) (evt : Event) (s' : ChainState τ ν) :
    Prop where
  seq : evt.seq = s.expectedSeq + 1
  prev : evt.prev = s.expectedPrev
  content : contentHash p.sha256 evt.payload = evt.content
  proof : verifyEventSignature p evt pubKey = .ok () ∨ evt.sig = [] ∧ evt.sealed
  head : ∀ hv, heads = some hv → evt.type = eventSystemWitnessed →
    ∃ attested err, hv.verifyHead s.heads evt s.since.hashAt = (s'.heads, attested, err) ∧
      ∀ e, err = some e → evt.sealed = false ∧ hv.keyUnknown e
  visited : visit s.visited evt = .ok s'.visited
  expectedSeq : s'.expectedSeq = s.expectedSeq + 1
  expectedPrev : s'.expectedPrev = entryHash p.sha256 evt
  count : s'.n = s.n + 1

variable {evt : Event} {s s' : ChainState τ ν}

theorem proveRecord_eq_ok {b : Boundary}
    (h : proveRecord (ψ := ψ) p pubKey heads s evt b = .ok s') :
    (verifyEventSignature p evt pubKey = .ok () ∨ evt.sig = [] ∧ evt.sealed) ∧
      ∃ proved, s' = { s with traversed := b, proved := proved } := by
  unfold proveRecord at h
  split_ifs at h with h1 h2 h3
  · split at h
    · cases h
    · rename_i hv
      cases h
      exact ⟨.inl hv, b, rfl⟩
  · cases h
    rw [not_not] at h2
    exact ⟨.inr ⟨h2, by simpa using h3⟩, s.proved, rfl⟩

theorem proveHead_eq_ok (h : proveHead (ψ := ψ) heads s evt = .ok s') :
    (∀ hv, heads = some hv → evt.type = eventSystemWitnessed →
      ∃ attested err, hv.verifyHead s.heads evt s.since.hashAt = (s'.heads, attested, err) ∧
        ∀ e, err = some e → evt.sealed = false ∧ hv.keyUnknown e) ∧
      ∃ h since, s' = { s with heads := h, since := since } := by
  unfold proveHead at h
  cases heads with
  | none =>
    cases h
    exact ⟨nofun, s.heads, s.since, rfl⟩
  | some hv =>
    dsimp only at h
    by_cases ht : evt.type = eventSystemWitnessed
    · rw [if_neg (not_not_intro ht)] at h
      split at h
      · rename_i t attested hr
        cases h
        refine ⟨?_, _, _, rfl⟩
        rintro _ ⟨⟩ -
        exact ⟨attested, none, hr, nofun⟩
      · rename_i t attested e hr
        split_ifs at h with hk
        cases h
        refine ⟨?_, _, _, rfl⟩
        rintro _ ⟨⟩ -
        refine ⟨attested, some e, hr, ?_⟩
        simpa using hk
    · rw [if_pos ht] at h
      cases h
      exact ⟨fun _ _ h => absurd h ht, s.heads, s.since, rfl⟩

theorem verifyRecord_accepted (h : verifyRecord p pubKey heads visit s evt = .ok s') :
    Accepted p pubKey heads visit s evt s' := by
  unfold verifyRecord at h
  obtain ⟨hseq, h⟩ := ite_error_eq_ok.mp h
  obtain ⟨hprev, h⟩ := ite_error_eq_ok.mp h
  obtain ⟨hcontent, h⟩ := ite_error_eq_ok.mp h
  obtain ⟨s₁, h₁, h⟩ := bind_eq_ok.mp h
  obtain ⟨s₂, h₂, h⟩ := bind_eq_ok.mp h
  obtain ⟨hproof, b, rfl⟩ := proveRecord_eq_ok h₁
  obtain ⟨hhead, t, since, rfl⟩ := proveHead_eq_ok h₂
  split at h
  · cases h
  · rename_i v hv
    cases h
    exact ⟨not_not.mp hseq, not_not.mp hprev, not_not.mp hcontent, hproof, hhead, hv, rfl, rfl, rfl⟩

theorem chained_of_foldlM (h : es.foldlM (verifyRecord p pubKey heads visit) s = .ok s') :
    Chained p.sha256 s.expectedSeq s.expectedPrev es := by
  induction es generalizing s with
  | nil => trivial
  | cons e es ih =>
    obtain ⟨m, hm, h⟩ := foldlM_cons_eq_ok.mp h
    have ha := verifyRecord_accepted hm
    refine ⟨ha.seq, ha.prev, ?_⟩
    rw [← ha.expectedSeq, ← ha.expectedPrev]
    exact ih h

variable {source : List Event × Option RecordError} {t : τ} {v : ν} {s : ChainState τ ν}

theorem verifyChain_eq_ok : verifyChain p pubKey heads visit source t v = .ok s ↔
    source.1.foldlM (verifyRecord p pubKey heads visit) (.init t v) = .ok s ∧ source.2 = none := by
  unfold verifyChain
  rw [bind_eq_ok]
  cases source.2 with
  | none => simp
  | some e => simp

section
variable (h : verifyChain p pubKey heads visit source t v = .ok s)
include h

theorem chained_of_verifyChain :
    Chained p.sha256 0 [] source.1 := chained_of_foldlM (verifyChain_eq_ok.mp h).1

theorem accepted_of_verifyChain {e : Event} (he : e ∈ source.1) :
    ∃ s₁ s₂, Accepted p pubKey heads visit s₁ e s₂ := by
  obtain ⟨s₁, s₂, -, h⟩ := foldlM_ok_mem (P := fun _ => True) (verifyChain_eq_ok.mp h).1 trivial
    (fun _ _ _ _ _ => trivial) he
  exact ⟨s₁, s₂, verifyRecord_accepted h⟩

end

end

instance decidableChained (sha256 : Bytes → Bytes) :
    (n : Nat) → (prev : Bytes) → (es : List Event) → Decidable (Chained sha256 n prev es)
  | _, _, [] => .isTrue trivial
  | n, _, e :: es =>
    have := decidableChained sha256 (n + 1) (entryHash sha256 e) es
    inferInstanceAs (Decidable (_ ∧ _ ∧ _))

/-! ### A small record -/

def checksum : Primitives where
  sha256 bs := [bs.foldl (· + ·) 0, UInt8.ofNat bs.length]
  verify pk msg sig := sig == pk ++ [msg.foldl (· + ·) 0, UInt8.ofNat msg.length]
  parseTime _ := some 5

def signWith (pk msg : Bytes) : List Char := base64Encode (pk ++ checksum.sha256 msg)

def identityKey : Bytes := [1]

def signRecord (e : Event) : Event :=
  { e with sig := Utf8.encode (signWith identityKey (signatureInputGold (bytesOf sigAlg)
      (publicKeyFingerprint checksum identityKey) (entryHash checksum.sha256 e))) }

def openingRecord : Event where
  seq := 1
  prev := []
  timestamp := bytesOf "2026-01-01T00:00:00Z"
  type := bytesOf "experience.create"
  ring := 3
  content := contentHash checksum.sha256 (bytesOf "\x7b\x7d")
  payload := bytesOf "\x7b\x7d"
  sig := []
  sealed := false
  closing := false
  container := .none

def headRecord (payload : Bytes) : Event := signRecord { openingRecord with
    seq := 2
    prev := entryHash checksum.sha256 openingRecord
    type := eventSystemWitnessed
    ring := 0
    content := contentHash checksum.sha256 payload
    payload := payload }

def lineOf (e : Event) : Bytes := match marshalJSON e with
  | .ok line => line ++ [newline]
  | .error _ => []

end AiiOs.Ledger
