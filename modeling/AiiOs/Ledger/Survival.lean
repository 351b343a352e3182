import AiiOs.Ledger.Restart
import AiiOs.Ledger.Appending
import AiiOs.Ledger.Sealing

/-! Runs of appends and restarts under failures of the file system. -/

namespace AiiOs.Ledger
open Lib Lib.Json AiiOs.CanonicalJson List Option Utf8

/-! ### The system -/

/-- What a boot hands to `OpenVerified`. -/
structure Boot (τ ε ν ψ χ : Type) where
  heads : Option (HeadVerifier τ ε)
  visit : ν → Event → Except ψ ν
  check : Nat → Except χ Unit
  h : τ
  v : ν
  io : RestartIo

inductive HostAction (τ ε ν ψ χ : Type)
  | append (req : AppendRequest) (io : AppendIo)
  | restart (boot : Boot τ ε ν ψ χ)

/-- The files, what was preserved beside them, the ledger of the process that has them open,
and the events whose append has returned success so far. -/
structure Host where
  dir : Dir
  torn : List Bytes
  ledger : Option LedgerState
  acked : List Event

inductive Op (τ ε : Type)
  | append (kp : KeyPair) (req : AppendRequest) (io : AppendIo)
  | sealHead (head : Nat) (io : SealIo)
  | recoverSeal (pubKey : Bytes) (heads : Option (HeadVerifier τ ε)) (h : τ)
      (fault : Option RecoverStage)

section
variable {τ ε ν ψ χ : Type} (p : Primitives) (kp : KeyPair)

def Host.append (s : Host) (l : LedgerState) (req : AppendRequest) (io : AppendIo) : Host :=
  match appendPrepared p kp l s.dir req io with
  | (.ok evt, l, d) => { s with dir := d, ledger := some l, acked := s.acked ++ [evt] }
  | (.error _, l, d) => { s with dir := d, ledger := some l }

def Host.restart (s : Host) (b : Boot τ ε ν ψ χ) : Host :=
  let r := openVerified p kp.publicKey b.heads b.visit b.check s.dir b.h b.v b.io
  { s with dir := r.dir, torn := s.torn ++ r.torn, ledger := r.result.toOption.map Prod.fst }

def Host.step (s : Host) : HostAction τ ε ν ψ χ → Host
  | .append req io =>
    match s.ledger with
    | none => s
    | some l => s.append p kp l req io
  | .restart b => s.restart p kp b

def Host.run (s : Host) (as : List (HostAction τ ε ν ψ χ)) : Host := as.foldl (Host.step p kp) s

def Op.apply (s : LedgerState × Dir) : Op τ ε → LedgerState × Dir
  | .append kp req io => (appendPrepared p kp s.1 s.2 req io).2
  | .sealHead head io => (s.1.seal p.sha256 s.2 head io).2
  | .recoverSeal pubKey heads h fault =>
    let r := AiiOs.Ledger.recoverSeal p pubKey heads s.1 s.2 h fault
    (r.result.2, r.dir)

end

/-! ### What has to survive -/

/-- The content is the one hashed, and the identity's signature stands on it, unless a seal
has taken it off. -/
def Proven (p : Primitives) (pubKey : Bytes) (e : Event) : Prop :=
  contentHash p.sha256 e.payload = e.content ∧
    (verifyEventSignature p e pubKey = .ok () ∨ e.sig = [] ∧ e.sealed)

structure ValidChain (p : Primitives) (pubKey : Bytes) (evs : List Event) : Prop where
  chained : Chained p.sha256 0 [] evs
  proven : ∀ e ∈ evs, Proven p pubKey e

/-- The bytes on disk are a valid chain, with at most one incomplete line behind it. -/
structure DiskHolds (p : Primitives) (pubKey : Bytes) (d : Dir) (record : List Event) : Prop where
  streamed : stream p.sha256 d
    (some ((d.tail.getD []).take (completeTailEnd (d.tail.getD [])))) = (record, none)
  valid : ValidChain p pubKey record
  rest : newline ∉ (d.tail.getD []).drop (completeTailEnd (d.tail.getD []))

def KeyPair.Correct (p : Primitives) (kp : KeyPair) : Prop :=
  ∀ msg sig, kp.sign msg = some sig → sig ≠ [] ∧ p.verify kp.publicKey msg sig

def AppendIo.Whole (line : Bytes) : AppendIo → Prop
  | .fails _ kept => line.length < kept
  | _ => True

/-! ### A frozen ledger -/

section
variable {τ ε : Type} {p : Primitives}

section
variable {l : LedgerState} {r : FrozenReason} (hl : l.frozenReason = some r) (d : Dir)
include hl d

theorem Op.apply_frozen (op : Op τ ε) : op.apply p (l, d) = (l, d) := by
  cases op with
  | append kp req io => simp [Op.apply, appendPrepared, appendRefusal, hl]
  | sealHead head io => simp [Op.apply, LedgerState.seal, planSeal, hl]
  | recoverSeal pubKey heads h fault => simp [Op.apply, AiiOs.Ledger.recoverSeal, hl]

theorem Op.foldl_frozen (ops : List (Op τ ε)) : ops.foldl (Op.apply p) (l, d) = (l, d) := by
  induction ops with
  | nil => rfl
  | cons op ops ih => rw [foldl_cons, op.apply_frozen hl, ih]

end

end

section
variable {p : Primitives} {kp : KeyPair} {l l' : LedgerState} {d d' : Dir} {req : AppendRequest}
  {io : AppendIo} {r : Except AppendError Event}

theorem appendPrepared_cases (h : appendPrepared p kp l d req io = (r, l', d')) :
    (∃ e, r = .error e ∧ (∀ stage, e ≠ .uncertain stage) ∧ d' = d ∧
        (l' = l ∨ l'.frozenReason ≠ none)) ∨
      ∃ evt line, l.frozenReason = none ∧ newEvent p kp l req = .ok (evt, line) ∧
        ((∃ stage kept, io = .fails stage kept ∧ r = .error (.uncertain stage) ∧
            l'.frozenReason = some .appendUncertain ∧
            d' = writeTail d ((line ++ [newline]).take kept)) ∨
          (io.Whole line ∧ r = .ok evt ∧ d' = writeTail d (line ++ [newline]) ∧
            l' = { l with lastSeq := evt.seq, lastHash := entryHash p.sha256 evt })) := by
  unfold appendPrepared at h
  split at h
  · rename_i e he
    cases h
    refine .inl ⟨e, rfl, ?_, rfl, .inl rfl⟩
    rintro stage rfl
    unfold appendRefusal at he
    split at he
    · cases he
    · split at he
      · cases he
      · obtain ⟨f, -, hf⟩ := map_eq_some_iff.mp he
        cases hf
  rename_i hrefuse
  have hfree : l.frozenReason = none := by
    unfold appendRefusal at hrefuse
    split at hrefuse
    · cases hrefuse
    · assumption
  split at h
  · cases h
    exact .inl ⟨_, rfl, nofun, rfl, .inr (by simp)⟩
  split at h
  · rename_i e he
    cases h
    refine .inl ⟨e, rfl, ?_, rfl, .inl rfl⟩
    rintro stage rfl
    unfold newEvent at he
    dsimp only at he
    split at he
    · cases he
    split at he
    · cases he
    split at he
    · cases he
    split at he
    · cases he
    · cases he
  rename_i evt line hnew
  right
  refine ⟨evt, line, hfree, hnew, ?_⟩
  split at h
  · rename_i stage kept _
    cases h
    exact .inl ⟨stage, kept, rfl, rfl, by rw [uncertainAppend, hfree]; rfl, rfl⟩
  · rename_i hio
    cases h
    refine .inr ⟨?_, rfl, rfl, rfl⟩
    cases io with
    | fails stage kept => exact absurd rfl (hio stage kept)
    | fine => trivial
    | readFails => trivial

theorem frozen_of_uncertain {stage : AppendStage}
    (h : appendPrepared p kp l d req io = (.error (.uncertain stage), l', d')) :
    l'.frozenReason = some .appendUncertain := by
  rcases appendPrepared_cases h with ⟨e, he, hcertain, -⟩ | ⟨evt, line, -, -, hcase⟩
  · cases he
    exact absurd rfl (hcertain stage)
  · rcases hcase with ⟨_, _, -, -, hl, -⟩ | ⟨-, hr, -⟩
    · exact hl
    · cases hr

end

/-! ### The complete lines of a tail -/

def completeTail (t : Bytes) : Bytes := t.take (completeTailEnd t)

theorem completeTail_cases (t : Bytes) :
    (allSpace (openEnd t) ∧ completeTailEnd t = t.length ∧ completeTail t = t) ∨
      (allSpace (openEnd t) = false ∧ completeTailEnd t = (closedPart t).length ∧
      completeTail t = closedPart t) := by
  unfold completeTail completeTailEnd
  split_ifs with h1 h2
  · rw [(openEnd_of_closed h1).1]
    exact .inl ⟨rfl, rfl, take_length⟩
  · exact .inl ⟨h2, rfl, take_length⟩
  · exact .inr ⟨Bool.eq_false_iff.mpr h2, rfl, take_closedPart t⟩

variable {t : Bytes}

theorem completeTailEnd_of_closed (h : Closed t) : completeTailEnd t = t.length := by
  exact if_pos h

theorem completeTailEnd_of_terminated (h : Terminated t) : completeTailEnd t = t.length := by
  rcases completeTail_cases t with ⟨-, hend, -⟩ | ⟨hspace, -⟩
  · exact hend
  · rw [allSpace_of_blank h.openEnd_blank] at hspace
    cases hspace

theorem completeTail_idem (t : Bytes) : completeTail (completeTail t) = completeTail t := by
  rcases completeTail_cases t with ⟨-, -, h⟩ | ⟨-, -, h⟩
  · rw [h, h]
  · rw [h, completeTail, completeTailEnd_of_closed (closed_closedPart t), take_length]

theorem newline_notMem_rest (t : Bytes) : newline ∉ t.drop (completeTailEnd t) := by
  rcases completeTail_cases t with ⟨-, h, -⟩ | ⟨-, h, -⟩
  · rw [h]
    simp
  · rw [h, (congrArg (List.drop _) (closedPart_append_openEnd t).symm).trans drop_left]
    exact newline_notMem_openEnd t

theorem completeTail_begun {m : Bytes} (ht : Terminated t) (hnl : newline ∉ (0x7B :: (m ++ [0x7D]) : Bytes))
    {kept : Nat} (hk : kept ≤ (0x7B :: (m ++ [0x7D]) : Bytes).length) :
    completeTail (t ++ (0x7B :: (m ++ [0x7D]) ++ [newline]).take kept) = t ∨
      completeTail (t ++ (0x7B :: (m ++ [0x7D]) ++ [newline]).take kept) = closedPart t := by
  rw [take_append_of_le_length hk]
  cases kept with
  | zero =>
    left
    rw [take_zero, append_nil, completeTail, completeTailEnd_of_terminated ht, take_length]
  | succ kept =>
    right
    rw [take_succ_cons]
    have hx : newline ∉ (0x7B :: (m ++ [0x7D]).take kept : Bytes) := by
      intro hmem
      refine hnl ?_
      rcases mem_cons.mp hmem with h0 | hmem
      · exact absurd h0 (by decide)
      · exact mem_cons_of_mem _ (mem_of_mem_take hmem)
    obtain ⟨hopen, hclosed⟩ := openEnd_append t hx
    have hspace : allSpace (openEnd (t ++ 0x7B :: (m ++ [0x7D]).take kept)) = false := by
      refine not_allSpace_of_brace ?_
      rw [hopen]
      exact mem_append_right _ (mem_cons_self ..)
    rcases completeTail_cases (t ++ 0x7B :: (m ++ [0x7D]).take kept) with ⟨htrue, -⟩ | ⟨-, -, h⟩
    · cases hspace.symm.trans htrue
    · rw [h, hclosed]

/-! ### The record with one more event -/

variable {sha256 : Bytes → Bytes}

variable {n : Nat} {prev : Bytes} {es : List Event} {line : Bytes}

theorem Chained.last_seq {z : Event}
    (h : Chained sha256 n prev es) (hz : es.getLast? = some z) : z.seq = n + es.length := by
  induction es generalizing n prev with
  | nil => cases hz
  | cons e es ih =>
    obtain ⟨hseq, -, h⟩ := h
    rw [getLast?_cons] at hz
    cases hlast : es.getLast? with
    | none =>
      cases hz
      rw [getLast?_eq_none_iff.mp hlast]
      exact hseq
    | some y =>
      rw [hlast] at hz
      cases hz
      rw [ih h hlast, length_cons]
      omega

theorem Chained.concat {e : Event} (h : Chained sha256 n prev es) (hseq : e.seq = n + es.length + 1)
    (hprev : e.prev = (es.getLast?.map (entryHash sha256)).getD prev) :
    Chained sha256 n prev (es ++ [e]) := by
  induction es generalizing n prev with
  | nil => exact ⟨hseq, hprev, trivial⟩
  | cons a es ih =>
    obtain ⟨ha, hp, h⟩ := h
    refine ⟨ha, hp, ih h ?_ ?_⟩
    · rw [hseq, length_cons]
      omega
    · rw [hprev, getLast?_cons]
      cases es.getLast? <;> rfl

section
variable {p : Primitives} {kp : KeyPair} {l : LedgerState} {d : Dir} {sealedEvs es : List Event}
  {req : AppendRequest} {evt : Event} {line : Bytes}

def EndsAt (sha256 : Bytes → Bytes) (record : List Event) (seq : Nat) (hash : Bytes) : Prop :=
  match record.getLast? with
  | none => seq = 0 ∧ hash = []
  | some z => seq = z.seq ∧ hash = entryHash sha256 z

theorem SealedEnd.endsAt (h : SealedEnd p.sha256 l) {rs : List Reading}
    (hrs : streamSegments l.segments = ⟨rs, none⟩) :
    EndsAt p.sha256 (rs.map Reading.event) l.sealedSeq l.sealedHash := by
  unfold SealedEnd at h
  cases hs : l.segments.getLast? with
  | none =>
    rw [hs] at h
    rw [getLast?_eq_none_iff.mp hs] at hrs
    cases hrs
    exact h
  | some newest =>
    rw [hs] at h
    obtain ⟨es, z, hholds, hz, hseq, hhash⟩ := h
    obtain ⟨init, hinit⟩ := getLast?_eq_some_iff.mp hs
    rw [hinit] at hrs
    obtain ⟨a, b, -, hb, rfl⟩ := streamSegments_append_ok.mp hrs
    obtain ⟨b', _, hb', hnil, rfl⟩ := Walk.andThen_eq_ok.mp hb
    cases hnil
    obtain ⟨es', hes', heq⟩ := streamSegment_holds.mp ⟨b', hb', rfl⟩
    cases hholds.holds.decodes.unique hes'.holds.decodes
    obtain ⟨z', hz', hclose⟩ := hholds.closed
    cases hz.symm.trans hz'
    rw [EndsAt, append_nil, map_append, heq, getLast?_append, getLast?_map, hz]
    exact ⟨hseq.trans hclose.1.symm, hhash⟩

theorem EndsAt.advance {record : List Event} (h : EndsAt p.sha256 record l.lastSeq l.lastHash)
    (es : List Event) : EndsAt p.sha256 (record ++ es.map markTail) (l.advance p.sha256 es).lastSeq
      (l.advance p.sha256 es).lastHash := by
  unfold EndsAt LedgerState.advance
  rw [getLast?_append, getLast?_map]
  cases es.getLast? with
  | none => exact h
  | some z => exact ⟨rfl, rfl⟩

theorem InOrder.endsAt (h : InOrder p.sha256 d l sealedEvs es) :
    EndsAt p.sha256 (sealedEvs ++ es.map markTail) l.lastSeq l.lastHash := by
  obtain ⟨rs, hrs, rfl⟩ := h.segments
  rw [h.last]
  exact .advance (l := { l with lastSeq := l.sealedSeq, lastHash := l.sealedHash })
    (h.sealedEnd.endsAt hrs) es

theorem NewEvent.proven (hkp : kp.Correct p) (h : NewEvent p kp l req evt line) :
    Proven p kp.publicKey (markTail evt) := by
  obtain ⟨sig, hsign, rfl⟩ := h.signed
  obtain ⟨hne, hverify⟩ := hkp _ _ hsign
  have hsig : Utf8.encode (base64Encode sig) ≠ [] := by
    intro h0
    have hnil : base64Encode sig = [] := encode_injective (h0.trans encode_nil.symm)
    have hdecode := base64Decode_base64Encode sig
    rw [hnil] at hdecode
    exact hne (Option.some.inj hdecode).symm
  have hdecode : decodeSig (Utf8.encode (base64Encode sig)) = some sig := by
    rw [decodeSig, decode?_encode, bind_some, base64Decode_base64Encode]
  refine ⟨rfl, .inl ?_⟩
  simp only [verifyEventSignature, markTail, if_neg hsig, hdecode]
  exact if_pos hverify

theorem NewEvent.chained (hnew : NewEvent p kp l req evt line) (h : InOrder p.sha256 d l sealedEvs es)
    (hlt : l.lastSeq + 1 < 2 ^ 64) (hc : Chained p.sha256 0 [] (sealedEvs ++ es.map markTail)) :
    Chained p.sha256 0 [] (sealedEvs ++ (es ++ [evt]).map markTail) := by
  have hend := h.endsAt
  unfold EndsAt at hend
  have hnext := nextSeq_of_lt hlt
  rw [map_append, ← append_assoc]
  cases hz : (sealedEvs ++ es.map markTail).getLast? with
  | none =>
    rw [hz] at hend
    have hnil := getLast?_eq_none_iff.mp hz
    refine hc.concat ?_ ?_
    · rw [hnil]
      exact hnew.seq.trans (by rw [hend.1]; rfl)
    · rw [hz]
      exact hnew.prev.trans (if_neg (by rw [hend.1]; decide))
  | some z =>
    rw [hz] at hend
    have hlen := hc.last_seq hz
    have hpos : (sealedEvs ++ es.map markTail).length ≠ 0 := by
      intro h0
      rw [length_eq_zero_iff.mp h0] at hz
      cases hz
    refine hc.concat ?_ ?_
    · exact hnew.seq.trans (by rw [hnext, hend.1, hlen])
    · rw [hz]
      exact hnew.prev.trans ((if_pos (by rw [hnext]; omega)).trans hend.2)

theorem ValidChain.append (hkp : kp.Correct p) (hnew : NewEvent p kp l req evt line)
    (h : InOrder p.sha256 d l sealedEvs es) (hlt : l.lastSeq + 1 < 2 ^ 64)
    (hv : ValidChain p kp.publicKey (sealedEvs ++ es.map markTail)) :
    ValidChain p kp.publicKey (sealedEvs ++ (es ++ [evt]).map markTail) := by
  refine ⟨hnew.chained h hlt hv.chained, ?_⟩
  rw [map_append, ← append_assoc, forall_mem_append]
  exact ⟨hv.proven, forall_mem_singleton.mpr (hnew.proven hkp)⟩

end

/-! ### The invariant -/

def complete (d : Dir) : Dir := ⟨d.segments, some (completeTail (d.tail.getD [])), []⟩

/-- The complete lines are a record in order with the state `l₀`; the events acknowledged so
far are in its tail; a ledger that is not frozen is the one of these files. -/
structure Survives (p : Primitives) (kp : KeyPair) (s : Host) (l₀ : LedgerState)
    (sealedEvs es : List Event) : Prop where
  inOrder : InOrder p.sha256 (complete s.dir) l₀ sealedEvs es
  valid : ValidChain p kp.publicKey (sealedEvs ++ es.map markTail)
  acked : ∀ e ∈ s.acked, e ∈ es
  tail : ∃ t, s.dir.tail = some t
  inStep : ∀ l, s.ledger = some l → l.frozenReason = none → l = l₀ ∧ s.dir = complete s.dir

section
variable {p : Primitives} {kp : KeyPair} {l : LedgerState} {d : Dir} {sealedEvs es : List Event}

variable {l₀ : LedgerState} {s : Host} {req : AppendRequest} {evt : Event} {line : Bytes}
variable {torn : List Bytes} {acked : List Event} {kept : Nat}

section
variable (h : InOrder p.sha256 d l sealedEvs es)
include h

theorem InOrder.complete_eq : complete d = d := by
  obtain ⟨t, ht, -, hterm⟩ := h.tail
  have hcut : completeTail t = t := by rw [completeTail, completeTailEnd_of_terminated hterm, take_length]
  obtain ⟨segs, tail, temps⟩ := d
  cases ht
  cases h.temps
  rw [complete, getD_some, hcut]

theorem InOrder.closed (ht : d.tail = some t) :
    InOrder p.sha256 { d with tail := some (closedPart t) } l sealedEvs es := by
  obtain ⟨t', ht', hholds, hterm⟩ := h.tail
  cases ht.symm.trans ht'
  refine { h with tail := ⟨_, rfl, hholds.closed hterm, ?_⟩ }
  intro q hq
  refine hterm q ?_
  rw [splitLines_openEnd]
  exact mem_append_left _ hq

theorem survives_of_inOrder (hv : ValidChain p kp.publicKey (sealedEvs ++ es.map markTail))
    (ha : ∀ e ∈ acked, e ∈ es) :
    Survives p kp ⟨d, torn, some l, acked⟩ l sealedEvs es where
  inOrder := h.complete_eq.symm ▸ h
  valid := hv
  acked := ha
  tail := h.tail.imp fun _ ht => ht.1
  inStep := by
    rintro _ ⟨⟩ -
    exact ⟨rfl, h.complete_eq.symm⟩

theorem InOrder.begun (hnew : NewEvent p kp l req evt line) (hk : kept ≤ line.length) :
    InOrder p.sha256 (complete (writeTail d ((line ++ [newline]).take kept))) l sealedEvs es := by
  obtain ⟨t, ht, -, hterm⟩ := h.tail
  obtain ⟨m, rfl, hnl⟩ := hnew.line_eq
  have hdir : ∀ x, completeTail (t ++ (0x7B :: (m ++ [0x7D]) ++ [newline]).take kept) = x →
      complete (writeTail d ((0x7B :: (m ++ [0x7D]) ++ [newline]).take kept)) =
        { d with tail := some x } := by
    rintro _ rfl
    rw [writeTail, ht, h.temps]
    rfl
  rcases completeTail_begun hterm hnl hk with hx | hx
  · rw [hdir t hx, ← ht]
    exact h
  · rw [hdir _ hx]
    exact h.closed ht

end

theorem Survives.freeze (h : InOrder p.sha256 (complete d) l₀ sealedEvs es)
    (hv : ValidChain p kp.publicKey (sealedEvs ++ es.map markTail)) (ha : ∀ e ∈ acked, e ∈ es)
    (ht : ∃ t, d.tail = some t) {o : Option LedgerState}
    (hf : ∀ l, o = some l → l.frozenReason ≠ none) :
    Survives p kp ⟨d, torn, o, acked⟩ l₀ sealedEvs es where
  inOrder := h
  valid := hv
  acked := ha
  tail := ht
  inStep l hl hfree := absurd hfree (hf l hl)

theorem Survives.append {io : AppendIo} (hkp : kp.Correct p) (h : Survives p kp s l₀ sealedEvs es)
    (hs : s.ledger = some l)
    (hfits : ∀ evt line, newEvent p kp l req = .ok (evt, line) → io.Whole line →
      ReadsBack l s.dir req evt ∧ l.lastSeq + 1 < 2 ^ 64) :
    ∃ l₀' es', Survives p kp (s.append p kp l req io) l₀' sealedEvs es' := by
  unfold Host.append
  rcases hres : appendPrepared p kp l s.dir req io with ⟨r, l', d'⟩
  rcases appendPrepared_cases hres with ⟨e, rfl, -, rfl, hl'⟩ | ⟨evt, line, hfree, hevent, hcase⟩
  · refine ⟨l₀, es, { h with inStep := ?_ }⟩
    rintro _ ⟨⟩ hfree
    rcases hl' with rfl | hl'
    · exact h.inStep _ hs hfree
    · exact absurd hfree hl'
  obtain ⟨rfl, hdir⟩ := h.inStep l hs hfree
  have hin : InOrder p.sha256 s.dir l sealedEvs es := hdir ▸ h.inOrder
  have hnew := newEvent_eq_ok hevent
  have hacked : ∀ e ∈ s.acked, e ∈ es ++ [evt] := fun e he => mem_append_left _ (h.acked e he)
  -- a line that got to the file as a whole is one more record
  have hwhole : io.Whole line → InOrder p.sha256 (writeTail s.dir (line ++ [newline]))
        { l with lastSeq := evt.seq, lastHash := entryHash p.sha256 evt } sealedEvs (es ++ [evt]) ∧
      ValidChain p kp.publicKey (sealedEvs ++ (es ++ [evt]).map markTail) := by
    intro hw
    obtain ⟨hr, hlt⟩ := hfits evt line hevent hw
    exact ⟨hin.append hnew hr, h.valid.append hkp hnew hin hlt⟩
  rcases hcase with ⟨stage, kept, rfl, rfl, hfrozen, rfl⟩ | ⟨hio, rfl, rfl, rfl⟩
  · have hf : ∀ l'', some l' = some l'' → l''.frozenReason ≠ none := by
      rintro _ ⟨⟩
      rw [hfrozen]
      exact some_ne_none _
    by_cases hk : kept ≤ line.length
    · exact ⟨_, es, .freeze (hin.begun hnew hk) h.valid h.acked ⟨_, rfl⟩ hf⟩
    · obtain ⟨hleft, hv'⟩ := hwhole (Nat.lt_of_not_le hk)
      rw [take_of_length_le (by rw [length_append, length_singleton]; omega)]
      exact ⟨_, es ++ [evt], .freeze (hleft.complete_eq.symm ▸ hleft) hv' hacked ⟨_, rfl⟩ hf⟩
  · obtain ⟨hleft, hv'⟩ := hwhole hio
    refine ⟨_, es ++ [evt], survives_of_inOrder hleft hv' ?_⟩
    rw [forall_mem_append]
    exact ⟨hacked, by simp⟩

theorem trimTail_cases (t : Bytes) (io : TrimIo) :
    ((trimTail t io).tail = t ∨ (trimTail t io).tail = completeTail t) ∧
      ((trimTail t io).ok → (trimTail t io).tail = completeTail t) := by
  unfold trimTail
  split_ifs with hlt
  · cases io with
    | fine => exact ⟨.inr rfl, fun _ => rfl⟩
    | preserveFails => exact ⟨.inl rfl, nofun⟩
    | truncateFails => exact ⟨.inl rfl, nofun⟩
    | syncFails => exact ⟨.inr rfl, fun _ => rfl⟩
  · have hall : completeTail t = t := take_of_length_le (Nat.le_of_not_lt hlt)
    exact ⟨.inl rfl, fun _ => hall.symm⟩

theorem Survives.restart {τ ε ν ψ χ : Type} (h : Survives p kp s l₀ sealedEvs es)
    (b : Boot τ ε ν ψ χ) : Survives p kp (s.restart p kp b) l₀ sealedEvs es := by
  obtain ⟨⟨segs, tail, temps⟩, torn, ledger, acked⟩ := s
  obtain ⟨t, rfl⟩ : ∃ t, tail = some t := h.tail
  obtain ⟨hcut, hok⟩ := trimTail_cases t b.io.trimIo
  have hkeep : ∀ t' temps', (t' = t ∨ t' = completeTail t) →
      InOrder p.sha256 (complete ⟨segs, some t', temps'⟩) l₀ sealedEvs es := by
    rintro t' temps' (rfl | rfl)
    · exact h.inOrder
    · rw [complete, getD_some, completeTail_idem]
      exact h.inOrder
  have hgone : ∀ l, (none : Option LedgerState) = some l → l.frozenReason ≠ none := nofun
  unfold Host.restart openVerified
  dsimp only
  rw [getD_some, map_some]
  split
  · exact .freeze (hkeep t temps (.inl rfl)) h.valid h.acked ⟨t, rfl⟩ hgone
  split
  · exact .freeze (hkeep t temps (.inl rfl)) h.valid h.acked ⟨t, rfl⟩ hgone
  split
  · exact .freeze (hkeep _ temps hcut) h.valid h.acked ⟨_, rfl⟩ hgone
  rename_i htrim
  by_cases hfails : b.io = .openFails
  · rw [if_pos hfails]
    exact .freeze (hkeep _ [] hcut) h.valid h.acked ⟨_, rfl⟩ hgone
  have hopen : openLedger p.sha256 ⟨segs, some (trimTail t b.io.trimIo).tail, temps⟩ =
      .ok (l₀, complete ⟨segs, some t, temps⟩) := by
    rw [hok (by simpa using htrim)]
    exact h.inOrder.openLedger temps
  rw [hopen]
  dsimp only
  split_ifs
  · exact .freeze (hkeep _ [] (.inr rfl)) h.valid h.acked ⟨_, rfl⟩ hgone
  · exact survives_of_inOrder h.inOrder h.valid h.acked

end

/-! ### Runs -/

section
variable {τ ε ν ψ χ : Type}

/-- An event that passes the checks of the writer and whose line reaches the file as a whole
suits the reader as well, and its number does not come round. -/
def Suits (p : Primitives) (kp : KeyPair) (s : Host) : HostAction τ ε ν ψ χ → Prop
  | .append req io => ∀ l evt line, s.ledger = some l → newEvent p kp l req = .ok (evt, line) →
      io.Whole line → ReadsBack l s.dir req evt ∧ l.lastSeq + 1 < 2 ^ 64
  | .restart _ => True

def RunSuits (p : Primitives) (kp : KeyPair) : Host → List (HostAction τ ε ν ψ χ) → Prop
  | _, [] => True
  | s, a :: as => Suits p kp s a ∧ RunSuits p kp (s.step p kp a) as

variable {p : Primitives} {kp : KeyPair} {sealedEvs es : List Event} {l₀ : LedgerState} {s : Host}

theorem Survives.step (hkp : kp.Correct p) (h : Survives p kp s l₀ sealedEvs es) {a : HostAction τ ε ν ψ χ}
    (ha : Suits p kp s a) : ∃ l₀' es', Survives p kp (s.step p kp a) l₀' sealedEvs es' := by
  cases a with
  | append req io =>
    rw [Host.step]
    cases hs : s.ledger with
    | none => exact ⟨l₀, es, h⟩
    | some l => exact h.append hkp hs fun evt line => ha l evt line hs
  | restart b => exact ⟨l₀, es, h.restart b⟩

theorem Survives.run (hkp : kp.Correct p) (h : Survives p kp s l₀ sealedEvs es)
    {as : List (HostAction τ ε ν ψ χ)} (has : RunSuits p kp s as) :
    ∃ l₀' es', Survives p kp (s.run p kp as) l₀' sealedEvs es' := by
  induction as generalizing s l₀ es with
  | nil => exact ⟨l₀, es, h⟩
  | cons a as ih =>
    obtain ⟨l₁, es₁, h₁⟩ := h.step hkp has.1
    exact ih h₁ has.2

theorem acked_step (s : Host) (a : HostAction τ ε ν ψ χ) : s.acked <+: (s.step p kp a).acked := by
  cases a with
  | append req io =>
    rw [Host.step]
    split
    · exact prefix_rfl
    · unfold Host.append
      split
      · exact prefix_append ..
      · exact prefix_rfl
  | restart b => exact prefix_rfl

theorem acked_run (s : Host) (as : List (HostAction τ ε ν ψ χ)) : s.acked <+: (s.run p kp as).acked := by
  induction as generalizing s with
  | nil => exact prefix_rfl
  | cons a as ih => exact (acked_step s a).trans (ih _)

/-- In every run whose events suit the reader: what was acknowledged stays in the record under
its number, no number is taken twice, the bytes on disk are a valid chain with at most one
incomplete line behind it, and an append whose outcome is uncertain is the last thing the
process does to the files. -/
theorem acknowledged_survive {d₀ d : Dir} {l : LedgerState} {evs : List Event} (hkp : kp.Correct p)
    (hopen : openLedger p.sha256 d₀ = .ok (l, d)) (hstream : stream p.sha256 d none = (evs, none))
    (hvalid : ValidChain p kp.publicKey evs) (as bs : List (HostAction τ ε ν ψ χ))
    (hsuits : RunSuits p kp ⟨d, [], some l, []⟩ (as ++ bs)) :
    ∃ record, DiskHolds p kp.publicKey (Host.run p kp ⟨d, [], some l, []⟩ (as ++ bs)).dir record ∧
      (∀ e ∈ (Host.run p kp ⟨d, [], some l, []⟩ as).acked, markTail e ∈ record) ∧
      (record.map Event.seq).Nodup ∧
      ∀ l', (Host.run p kp ⟨d, [], some l, []⟩ (as ++ bs)).ledger = some l' →
        ∀ req io stage l'' d'', appendPrepared p kp l'
          (Host.run p kp ⟨d, [], some l, []⟩ (as ++ bs)).dir req io =
            (.error (.uncertain stage), l'', d'') →
          ∀ ops : List (Op τ ε), ops.foldl (Op.apply p) (l'', d'') = (l'', d'') := by
  obtain ⟨sealedEvs, es, hin, rfl⟩ := inOrder_of_open hopen hstream
  have hstart : Survives p kp ⟨d, [], some l, []⟩ l sealedEvs es :=
    survives_of_inOrder hin hvalid (by simp)
  obtain ⟨l₁, es₁, h⟩ := hstart.run hkp hsuits
  refine ⟨sealedEvs ++ es₁.map markTail, ⟨h.inOrder.stream, h.valid, newline_notMem_rest _⟩, ?_, ?_, ?_⟩
  · intro e he
    refine mem_append_right _ (List.mem_map_of_mem (h.acked e ?_))
    rw [Host.run, foldl_append]
    exact (acked_run _ bs).mem he
  · rw [h.valid.chained.seqs]
    exact nodup_range'
  · intro l' _ req io stage l'' d'' hres ops
    exact Op.foldl_frozen (frozen_of_uncertain hres) d'' ops

end

/-! ### Small runs -/

def newHost : Host := ⟨newDir, [], some newLedger, []⟩

def plainBoot : Boot Unit Unit Unit Unit Unit := ⟨none, fun _ _ => .ok (), fun _ => .ok (), (), (), .fine⟩

theorem constantKey_correct : constantKey.Correct constantHash := by
  rintro msg sig ⟨⟩
  exact ⟨by simp, rfl⟩

theorem not_diskHolds_of_unreadable {p : Primitives} {pubKey : Bytes} {d : Dir}
    (ht : d.tail = some t) (hclosed : Closed t) {evs : List Event} {e : RecordError}
    (hread : stream p.sha256 d none = (evs, some e)) (record : List Event) :
    ¬DiskHolds p pubKey d record := by
  intro h
  have hs := h.streamed
  rw [ht, getD_some, completeTailEnd_of_closed hclosed, take_length] at hs
  have hsame : stream p.sha256 d (some t) = stream p.sha256 d none := by
    unfold stream streamLines
    rw [ht]
    rfl
  rw [hsame, hread] at hs
  cases hs

def appendText (n : Nat) : HostAction Unit Unit Unit Unit Unit := .append (textRequest n) .fine

theorem append_text_no_chain {n : Nat} (hn : n + 205 = maxEventLineBytes) :
    (newHost.run constantHash constantKey [appendText n]).acked.length = 1 ∧
      ∀ record, ¬DiskHolds constantHash constantKey.publicKey
        (newHost.run constantHash constantKey [appendText n]).dir record := by
  obtain ⟨evt, l', d', happend, -, hread⟩ := append_text_unreadable hn
  obtain ⟨line, -, -, -, rfl⟩ := appendPrepared_eq_ok happend
  have hrun : newHost.run constantHash constantKey [appendText n] =
      ⟨writeTail newDir (line ++ [newline]), [], some l', [evt]⟩ := by
    simp only [Host.run, foldl_cons, foldl_nil, appendText, Host.step, newHost, Host.append,
      happend, nil_append]
  rw [hrun]
  refine ⟨rfl, not_diskHolds_of_unreadable rfl (.inr ?_) hread⟩
  rw [← append_assoc, getLast?_concat]

/-- After one acknowledged append of a line that fills the limit, the bytes on disk are no
longer a chain that reads. -/
theorem boundary_append_no_chain :
    (newHost.run constantHash constantKey [appendText (maxEventLineBytes - 205)]).acked.length = 1 ∧
      ∀ record, ¬DiskHolds constantHash constantKey.publicKey
        (newHost.run constantHash constantKey [appendText (maxEventLineBytes - 205)]).dir record :=
  append_text_no_chain (by decide)

theorem readsBack_text {n : Nat} (hn : n + 205 < maxEventLineBytes) {evt : Event}
    (h : newEvent constantHash constantKey newLedger (textRequest n) = .ok (evt, line)) :
    ReadsBack newLedger newDir (textRequest n) evt := by
  obtain ⟨line', hevent, hlen⟩ := newEvent_text (Nat.le_of_lt hn)
  cases hevent.symm.trans h
  have hall : ((charsOf "experience.create").all fun c => decide (Printable c)) := by decide
  have hchars : ∀ c ∈ charsOf "experience.create", Printable c := fun c hc =>
    of_decide_eq_true (List.all_eq_true.mp hall c hc)
  refine ⟨?_, plain_of_printable hchars, ?_, .inl rfl⟩
  · rw [(newEvent_eq_ok h).lineOf_eq, length_append, hlen]
    exact (Nat.zero_add _).symm ▸ hn
  · have hdepth : (Value.obj (textMembers n)).depth + 1 ≤ maxNestingDepth := by
      simp [textMembers, Value.depth, membersDepth, maxNestingDepth]
    have hparse := parseDocument_emit (textMembers_inProfile n) (Nat.le_of_succ_le hdepth)
    show payloadDepth (Utf8.encode (emitCanonicalJSONValue (.obj (textMembers n)))) + 1 ≤ _
    rw [payloadDepth, decode?_encode, map_some, hparse]
    exact depth_normalize_eq_obj hdepth

/-- A short text, and a restart behind it. -/
theorem acknowledged_survive_restart : ∃ record evt,
    (newHost.run constantHash constantKey [appendText 3]).acked = [evt] ∧
      DiskHolds constantHash constantKey.publicKey
        (newHost.run constantHash constantKey ([appendText 3] ++ [.restart plainBoot])).dir record ∧
      markTail evt ∈ record := by
  have hopen : openLedger constantHash.sha256 ⟨[], none, []⟩ = .ok (newLedger, newDir) := rfl
  have hvalid : ValidChain constantHash constantKey.publicKey [] := ⟨trivial, by simp⟩
  have hsuits : RunSuits constantHash constantKey newHost ([appendText 3] ++ [.restart plainBoot]) := by
    refine ⟨?_, trivial, trivial⟩
    rintro _ evt line ⟨⟩ hevent -
    exact ⟨readsBack_text (by decide) hevent, by decide⟩
  obtain ⟨record, hdisk, hacked, -⟩ := acknowledged_survive constantKey_correct hopen rfl hvalid
    [appendText 3] [.restart plainBoot] hsuits
  have hone : (newHost.run constantHash constantKey [appendText 3]).acked.length = 1 := by
    decide +kernel
  obtain ⟨evt, hevt⟩ := length_eq_one_iff.mp hone
  exact ⟨record, evt, hevt, hdisk, hacked evt (by
    show evt ∈ (newHost.run constantHash constantKey [appendText 3]).acked
    rw [hevt]
    exact mem_singleton_self _)⟩

end AiiOs.Ledger
