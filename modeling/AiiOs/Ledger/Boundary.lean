import AiiOs.Ledger.Survival
import AiiOs.Ledger.Readers

/-! `OpenVerified` reads the record twice, once to prove it and once to open it for
writing. Both readings end at the same record. -/

namespace AiiOs.Ledger
open Lib List

/-! ### The complete lines -/

theorem terminated_of_closed {t : Bytes} (h : Closed t) : Terminated t := by
  intro p hp _
  rw [terminated, getLast?_of_closed h hp]
  rfl

theorem terminated_completeTail (t : Bytes) : Terminated (completeTail t) := by
  have hclosed := terminated_of_closed (closed_closedPart t)
  rcases completeTail_cases t with ⟨hspace, -, h⟩ | ⟨-, -, h⟩
  · rw [h]
    intro p hp hne
    rw [splitLines_openEnd, mem_append] at hp
    rcases hp with hp | hp
    · exact hclosed p hp hne
    · split_ifs at hp with hopen
      · cases hp
      · rw [mem_singleton.mp hp, blank_of_allSpace hspace] at hne
        exact absurd rfl hne
  · rw [h]
    exact hclosed

/-! ### The overlap, walked and reconciled -/

section
variable {sha256 : Bytes → Bytes} {seg : Segment} {err : Option RecordError} {rs : List Reading}
  {ls : List Line}

theorem overlapEnd_of_tailWalk {oc : OverlapChecker} {first : Bool}
    (h : tailWalk sha256 (some seg) err (.overlap oc) first ls = ⟨rs, none⟩) :
    (overlapEnd sha256 err oc ls = .ok none ∧ rs = []) ∨ ∃ pre l post, ls = pre ++ l :: post ∧
        overlapEnd sha256 err oc ls = .ok (some (l.offset + l.size)) ∧
        tailWalk sha256 (some seg) err .beyond false post = ⟨rs, none⟩ := by
  induction ls generalizing oc first with
  | nil =>
    obtain ⟨hrs, herr⟩ := Walk.mk.inj h
    left
    subst herr
    exact ⟨rfl, hrs.symm⟩
  | cons l ls ih =>
    rw [tailWalk] at h
    rw [overlapEnd]
    cases hd : decodeEvent l.text with
    | error e =>
      rw [hd] at h
      cases h
    | ok e =>
      rw [hd] at h
      dsimp only [tailStep] at h ⊢
      split_ifs at h with hle
      · cases hc : oc.check sha256 e with
        | error e' =>
          rw [hc] at h
          cases h
        | ok r =>
          obtain ⟨done, oc'⟩ := r
          rw [hc] at h
          cases done with
          | true => exact .inr ⟨[], l, ls, rfl, rfl, h⟩
          | false =>
            rcases ih h with hend | ⟨pre, m, post, rfl, hend, hwalk⟩
            · exact .inl hend
            · exact .inr ⟨l :: pre, m, post, rfl, hend, hwalk⟩
      · cases h

theorem tailWalk_start {l : Line} {e : Event} (hd : decodeEvent l.text = .ok e)
    (hle : e.seq ≤ seg.last) (h : tailWalk sha256 (some seg) err .start true (l :: ls) = ⟨rs, none⟩) :
    seg.first ≤ e.seq ∧ ∃ oc, newOverlapChecker seg e.seq = .ok oc ∧
      tailWalk sha256 (some seg) err (.overlap oc) true (l :: ls) = ⟨rs, none⟩ := by
  rw [tailWalk, hd] at h
  dsimp only [tailStep] at h
  rw [if_pos hle] at h
  split_ifs at h with hfirst
  · cases h
  rw [not_or, not_lt] at hfirst
  cases hoc : newOverlapChecker seg e.seq with
  | error e' =>
    rw [hoc] at h
    cases h
  | ok oc =>
    rw [hoc] at h
    refine ⟨hfirst.2, oc, rfl, ?_⟩
    rw [tailWalk, hd]
    dsimp only [tailStep]
    rw [if_pos hle]
    exact h

theorem reconcileTail_of_streamTail {t : Bytes} (h : streamTail sha256 t (some seg) = ⟨rs, none⟩)
    (ht : Terminated t) : ∃ kept es, reconcileTail sha256 seg t = .ok kept ∧ Holds kept es ∧
      Terminated kept ∧ rs.map Reading.event = es.map markTail := by
  -- either the tail starts behind the segment, or its first lines repeat the end of it
  by_cases hf : ∀ l ∈ (scan maxEventLineBytes t).1.head?, ∀ e, decodeEvent l.text = .ok e → seg.last < e.seq
  · have hfirst : ∀ newest, some seg = some newest → ∀ l ∈ (scan maxEventLineBytes t).1.head?, ∀ e,
        decodeEvent l.text = .ok e → newest.last < e.seq := by
      rintro _ ⟨⟩
      exact hf
    obtain ⟨es, hholds, hbehind, hes⟩ := (streamTail_holds hfirst).mp ⟨rs, h, rfl⟩
    exact ⟨t, es, reconcileTail_behind hholds hbehind, hholds, ht, hes⟩
  push Not at hf
  obtain ⟨l, hl, e, hd, hle⟩ := hf
  obtain ⟨ls, long, hscan⟩ : ∃ ls long, scan maxEventLineBytes t = (l :: ls, long) := by
    obtain ⟨ls, hls⟩ := head?_eq_some_iff.mp hl
    exact ⟨ls, _, Prod.ext hls rfl⟩
  unfold streamTail at h
  rw [hscan] at h
  obtain ⟨hfirst, oc, hoc, hwalk⟩ := tailWalk_start hd hle h
  have hrec : reconcileTail sha256 seg t =
      (overlapEnd sha256 (tailReadErr t) oc (l :: ls)).map fun keep => t.drop (keep.getD t.length) := by
    have hrecord : firstRecord t = .ok (some e) := by
      rw [firstRecord, hscan]
      dsimp only
      rw [hd]
    unfold reconcileTail
    simp only [hrecord, hoc, hscan, bind, Except.bind]
    rw [if_neg (not_lt.mpr hle), if_neg (not_lt.mpr hfirst)]
    cases overlapEnd sha256 (tailReadErr t) oc (l :: ls) <;> rfl
  rcases overlapEnd_of_tailWalk hwalk with ⟨hend, rfl⟩ | ⟨pre, m, post, hls, hend, hwalk⟩
  · refine ⟨[], [], ?_, ⟨rfl, .nil⟩, ?_, rfl⟩
    · rw [hrec, hend]
      exact congrArg Except.ok drop_length
    · exact terminated_of_closed (.inl rfl)
  · obtain ⟨herr, hread⟩ := (tailWalk_eq_ok (.inr rfl)).mp hwalk
    obtain ⟨es, hes, hrs⟩ := exists_readings.mp ⟨rs, hread, rfl⟩
    rw [hls] at hscan
    obtain ⟨htexts, hlong⟩ := scan_drop hscan
    have hfits := tailReadErr_eq_none.mp herr
    rw [hscan] at hfits
    refine ⟨t.drop (m.offset + m.size), es, ?_, ⟨hlong.trans hfits, htexts ▸ hes⟩, ht.drop_line hscan, hrs⟩
    rw [hrec, hend]
    rfl

end

/-! ### Opening what was walked -/

section
variable {sha256 : Bytes → Bytes} {segs : List Segment} {a b : List Reading}

theorem openSealed_of_streamed {t : Bytes} (ha : streamSegments segs = ⟨a, none⟩)
    (hb : streamTail sha256 t segs.getLast? = ⟨b, none⟩) (ht : Terminated t) :
    ∃ l kept es, openSealed sha256 (some t) segs = .ok (l, kept) ∧ Holds kept es ∧
      Terminated kept ∧ b.map Reading.event = es.map markTail := by
  unfold openSealed
  cases hs : segs.getLast? with
  | none =>
    rw [hs] at hb
    obtain ⟨es, hholds, -, hes⟩ := (streamTail_holds (by nofun)).mp ⟨b, hb, rfl⟩
    exact ⟨_, t, es, rfl, hholds, ht, hes⟩
  | some newest =>
    rw [hs] at hb
    obtain ⟨kept, es, hrec, hholds, hterm, hes⟩ := reconcileTail_of_streamTail hb ht
    obtain ⟨init, rfl⟩ := getLast?_eq_some_iff.mp hs
    obtain ⟨_, _, -, hnewest, -⟩ := streamSegments_append_ok.mp ha
    obtain ⟨rs, _, hrs, -, -⟩ := Walk.andThen_eq_ok.mp hnewest
    obtain ⟨ss, hss, -⟩ := streamSegment_holds.mp ⟨rs, hrs, rfl⟩
    obtain ⟨z, hz, -⟩ := hss.closed
    simp only [segmentEnd_holds hss hz, hrec]
    exact ⟨_, kept, es, rfl, hholds, hterm, hes⟩

theorem continues_of_chained {l : LedgerState} {record es : List Event}
    (hend : EndsAt sha256 record l.sealedSeq l.sealedHash)
    (h : Chained sha256 0 [] (record ++ es.map markTail)) : Continues l es := by
  intro hpos e he
  unfold EndsAt at hend
  cases hz : record.getLast? with
  | none =>
    rw [hz] at hend
    omega
  | some z =>
    rw [hz] at hend
    obtain ⟨init, rfl⟩ := getLast?_eq_some_iff.mp hz
    rw [append_assoc] at h
    obtain ⟨es, rfl⟩ := head?_eq_some_iff.mp he
    obtain ⟨hseq, hprev, -⟩ := h.behind
    rw [hend.1, hend.2]
    exact ⟨hseq, hprev⟩

end

section
variable {τ ε ν ψ χ : Type} {p : Primitives} {pubKey : Bytes} {heads : Option (HeadVerifier τ ε)}
  {visit : ν → Event → Except ψ ν} {d : Dir} {h : τ} {v : ν} {count : Nat} {boundary : Boundary}
  {record : List Event}

theorem openLedger_of_chained
    (hstream : stream p.sha256 d (some (completeTail (d.tail.getD []))) = (record, none))
    (hchained : Chained p.sha256 0 [] record) :
    ∃ l d', openLedger p.sha256 { d with tail := d.tail.map completeTail } = .ok (l, d') ∧
      EndsAt p.sha256 record l.lastSeq l.lastHash := by
  obtain ⟨rs, hrs, rfl⟩ := stream_eq_ok.mp hstream
  obtain ⟨segs, t, a, b, hlist, ht, ha, hb, rfl⟩ := streamLines_eq_ok.mp hrs
  obtain rfl : completeTail (d.tail.getD []) = t := Option.some.inj ht
  obtain ⟨l₀, kept, es, hopen, hholds, hterm, hes⟩ := openSealed_of_streamed ha hb (terminated_completeTail _)
  obtain ⟨rfl, hend, -, hseq, hhash⟩ := openSealed_eq_ok hopen
  have hat := hend.endsAt ha
  rw [map_append, hes] at hchained ⊢
  have hread : readChainState p.sha256 true l₀ (splitLines kept) = .ok (l₀.advance p.sha256 es) :=
    (readChainState_holds hholds).mpr ⟨hterm, fun _ => continues_of_chained hat hchained, rfl⟩
  have hsealed : openSealed p.sha256 (d.tail.map completeTail) l₀.segments = .ok (l₀, kept) := by
    cases htail : d.tail with
    | none =>
      rw [htail] at hopen
      refine Eq.trans ?_ hopen
      unfold openSealed
      split
      · rfl
      · split <;> rfl
    | some t =>
      rw [htail] at hopen
      exact hopen
  refine ⟨l₀.advance p.sha256 es, ⟨d.segments, some kept, []⟩, ?_, ?_⟩
  · have hlist' : listSegments ⟨d.segments, d.tail.map completeTail, []⟩ = .ok l₀.segments := hlist
    simp only [openLedger, sweepDebris, hlist', hsealed, hread]
  · rw [← hseq, ← hhash] at hat
    exact hat.advance es

/-! ### The boundary that was visited -/

theorem boundary_of_verifyChain {source : List Event × Option RecordError} {b₀ : Boundary}
    {s : ChainState τ (ν × Boundary)}
    (hs : verifyChain p pubKey heads (boundaryVisit p visit) source h (v, b₀) = .ok s) :
    s.visited.2 = (source.1.getLast?.map fun z => ⟨z.seq, entryHash p.sha256 z⟩).getD b₀ := by
  have hfold := (verifyChain_eq_ok.mp hs).1
  cases hz : source.1.getLast? with
  | none =>
    rw [getLast?_eq_none_iff.mp hz] at hfold
    cases hfold
    rfl
  | some z =>
    obtain ⟨init, hinit⟩ := getLast?_eq_some_iff.mp hz
    rw [hinit] at hfold
    obtain ⟨m, -, hlast⟩ := foldlM_append_eq_ok.mp hfold
    obtain ⟨m', hm', hnil⟩ := foldlM_cons_eq_ok.mp hlast
    cases hnil
    have hvisited := (verifyRecord_accepted hm').visited
    unfold boundaryVisit at hvisited
    split at hvisited
    · cases hvisited
    · rw [← Except.ok.inj hvisited]
      rfl

theorem verifyComplete_eq_ok (hv : verifyComplete p pubKey heads visit d h v = .ok (count, boundary)) :
    ∃ record, stream p.sha256 d (some (completeTail (d.tail.getD []))) = (record, none) ∧
      Chained p.sha256 0 [] record ∧ EndsAt p.sha256 record boundary.seq boundary.hash := by
  unfold verifyComplete at hv
  dsimp only at hv
  split at hv
  · cases hv
  · rename_i s hs
    cases hv
    refine ⟨_, Prod.ext rfl (verifyChain_eq_ok.mp hs).2, chained_of_verifyChain hs, ?_⟩
    rw [boundary_of_verifyChain hs]
    unfold EndsAt completeTail
    split <;> rename_i hz <;> rw [hz] <;> exact ⟨rfl, rfl⟩

theorem EndsAt.unique {sha256 : Bytes → Bytes} {seq seq' : Nat}
    {hash hash' : Bytes} (h : EndsAt sha256 record seq hash) (h' : EndsAt sha256 record seq' hash') :
    seq = seq' ∧ hash = hash' := by
  unfold EndsAt at h h'
  split at h
  · rename_i hz
    rw [hz] at h'
    exact ⟨h.1.trans h'.1.symm, h.2.trans h'.2.symm⟩
  · rename_i z hz
    rw [hz] at h'
    exact ⟨h.1.trans h'.1.symm, h.2.trans h'.2.symm⟩

section
variable (hv : verifyComplete p pubKey heads visit d h v = .ok (count, boundary))
include hv

/-- Where the complete lines verify, the record opens behind its torn suffix with the number
and the hash of the last record the verification visited. -/
theorem openLedger_of_verified :
    ∃ l d', openLedger p.sha256 { d with tail := d.tail.map completeTail } = .ok (l, d') ∧
      l.lastSeq = boundary.seq ∧ l.lastHash = boundary.hash := by
  obtain ⟨record, hstream, hchained, hend⟩ := verifyComplete_eq_ok hv
  obtain ⟨l, d', hopen, hl⟩ := openLedger_of_chained hstream hchained
  exact ⟨l, d', hopen, hl.unique hend⟩

theorem beforeCleanup_cases (check : Nat → Except χ Unit) :
    (∃ e, beforeCleanup p pubKey heads visit check d h v = .error e ∧ e ≠ .boundaryDiffers) ∨
      beforeCleanup p pubKey heads visit check d h v = .ok (count, boundary) := by
  unfold beforeCleanup
  rw [hv]
  dsimp only
  split_ifs
  · exact .inl ⟨_, rfl, nofun⟩
  · cases check boundary.seq with
    | error e => exact .inl ⟨_, rfl, nofun⟩
    | ok => exact .inr rfl

end

/-- Once the complete lines verify, and whatever else the file system does: the record opens
behind its torn suffix with the number and the hash of the last record the verification
visited, and the restart is never refused because the two differ. -/
theorem opened_at_verified_boundary (hv : verifyComplete p pubKey heads visit d h v = .ok (count, boundary))
    (check : Nat → Except χ Unit) (io : RestartIo) :
    ((trimTail (d.tail.getD []) io.trimIo).ok → ∃ l d', openLedger p.sha256
          { d with tail := d.tail.map fun _ => (trimTail (d.tail.getD []) io.trimIo).tail } =
            .ok (l, d') ∧
        l.lastSeq = boundary.seq ∧ l.lastHash = boundary.hash) ∧
      (openVerified p pubKey heads visit check d h v io).result ≠ .error .boundaryDiffers := by
  have hopened : (trimTail (d.tail.getD []) io.trimIo).ok → ∃ l d', openLedger p.sha256
          { d with tail := d.tail.map fun _ => (trimTail (d.tail.getD []) io.trimIo).tail } =
            .ok (l, d') ∧
        l.lastSeq = boundary.seq ∧ l.lastHash = boundary.hash := by
    intro hok
    have htail : (d.tail.map fun _ => (trimTail (d.tail.getD []) io.trimIo).tail) =
        d.tail.map completeTail := by
      rw [(trimTail_cases _ _).2 hok]
      cases d.tail <;> rfl
    rw [htail]
    exact openLedger_of_verified hv
  refine ⟨hopened, ?_⟩
  -- every exit of the restart before the comparison has another error
  unfold openVerified
  split
  · nofun
  rcases beforeCleanup_cases hv check with ⟨e, he, hne⟩ | hb
  · rw [he]
    exact fun heq => hne (Except.error.inj heq)
  rw [hb]
  dsimp only
  split
  · nofun
  rename_i htrim
  split
  · nofun
  obtain ⟨l, d', hopen, hseq, hhash⟩ := hopened (by simpa using htrim)
  rw [hopen]
  dsimp only
  rw [if_neg (by simp [hseq, hhash])]
  nofun

end

/-! A record with both of its sealed entries still in the tail, blank lines between them,
a third behind them and a line that was only begun. -/

def overlappingDir : Dir where
  segments := [⟨1, 2, lineOf openingRecord ++ lineOf (headRecord (bytesOf "\x7b\x7d")), false,
    Nat.one_pos, Nat.two_pos⟩]
  tail := some (newline :: (lineOf (signRecord openingRecord) ++
    0x20 :: newline :: (lineOf (headRecord (bytesOf "\x7b\x7d")) ++
      (lineOf laterRecord ++ bytesOf "\x7b\"seq\""))))
  temps := [[0]]

def anyHead : HeadVerifier Unit Unit := ⟨fun _ _ _ => ((), 0, none), fun _ => false⟩

theorem opened_at_verified_boundary_overlapping : ∃ boundary,
    verifyComplete (ψ := Empty) checksum identityKey (some anyHead) (fun (_ : Unit) _ => .ok ())
        overlappingDir () () = .ok (3, boundary) ∧
      ∃ l d', openLedger checksum.sha256 { overlappingDir with
          tail := overlappingDir.tail.map fun _ =>
            (trimTail (overlappingDir.tail.getD []) .fine).tail } = .ok (l, d') ∧
        l.lastSeq = boundary.seq ∧ l.lastHash = boundary.hash := by
  have hcount : ((verifyComplete (ψ := Empty) checksum identityKey (some anyHead)
      (fun (_ : Unit) _ => .ok ()) overlappingDir () ()).toOption.map Prod.fst) = some 3 := by
    decide +kernel
  obtain ⟨⟨_, boundary⟩, hv, rfl⟩ := Option.map_eq_some_iff.mp hcount
  have hok : verifyComplete (ψ := Empty) checksum identityKey (some anyHead)
      (fun (_ : Unit) _ => .ok ()) overlappingDir () () = .ok (3, boundary) := by
    revert hv
    cases verifyComplete (ψ := Empty) checksum identityKey (some anyHead)
      (fun (_ : Unit) _ => .ok ()) overlappingDir () () with
    | error e => exact nofun
    | ok r => exact fun hv => congrArg Except.ok (Option.some.inj hv)
  exact ⟨boundary, hok, (opened_at_verified_boundary hok (fun _ => (.ok () : Except Unit Unit))
    .fine).1 (by decide +kernel)⟩

end AiiOs.Ledger
