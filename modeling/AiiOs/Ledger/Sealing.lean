import AiiOs.Ledger.Overlap

/-! A seal, interrupted or not, leaves the record it found. -/

namespace AiiOs.Ledger
open Lib List

/-! ### Chains and marks -/

def bare (e : Event) : Event :=
  { e with sig := [], sealed := false, closing := false, container := .none }

variable {prev : Bytes}

variable {sha256 : Bytes → Bytes} {n : Nat} {es a b : List Event}

theorem chained_map_bare : Chained sha256 n prev (es.map bare) ↔ Chained sha256 n prev es := by
  induction es generalizing n prev with
  | nil => rfl
  | cons e es ih =>
    rw [map_cons, Chained, ih]
    rfl

theorem chained_markTail : Chained sha256 n prev (es.map markTail) ↔ Chained sha256 n prev es := by
  rw [← chained_map_bare, List.map_map]
  exact chained_map_bare

theorem Chained.append (h : Chained sha256 n prev (a ++ b)) :
    ∃ prev', Chained sha256 (n + a.length) prev' b := by
  induction a generalizing n prev with
  | nil => exact ⟨prev, h⟩
  | cons e a ih =>
    obtain ⟨-, -, h⟩ := h
    obtain ⟨prev', h⟩ := ih h
    refine ⟨prev', ?_⟩
    rwa [add_right_comm, add_assoc] at h

theorem Chained.behind {e : Event} (h : Chained sha256 n prev (a ++ e :: b)) :
    Chained sha256 e.seq (entryHash sha256 e) b := by
  induction a generalizing n prev with
  | nil =>
    obtain ⟨hseq, -, h⟩ := h
    rwa [hseq]
  | cons c a ih => exact ih h.2.2

theorem InOrder.chained {d : Dir} {l : LedgerState} {sealedEvs : List Event}
    (h : InOrder sha256 d l sealedEvs es) (hc : Chained sha256 0 [] (sealedEvs ++ es.map markTail)) :
    ∃ prev, Chained sha256 l.sealedSeq prev es := by
  obtain ⟨prev, hc'⟩ := hc.append
  rw [chained_markTail, zero_add] at hc'
  cases es with
  | nil => exact ⟨[], trivial⟩
  | cons e es =>
    have hlen : sealedEvs.length = l.sealedSeq := by
      rcases Nat.eq_zero_or_pos l.sealedSeq with hzero | hpos
      · have hnil : l.segments = [] := by
          cases hl : l.segments.getLast? with
          | none => exact getLast?_eq_none_iff.mp hl
          | some seg =>
            have := (h.sealedEnd.pos hl).2
            omega
        obtain ⟨rs, hrs, rfl⟩ := h.segments
        rw [hnil] at hrs
        cases hrs
        exact hzero.symm
      · have := (h.continues hpos e rfl).1
        have := hc'.1
        omega
    exact ⟨prev, hlen ▸ hc'⟩

/-! ### The files after a seal -/

def SealPlan.result (plan : SealPlan) (d : Dir) : Dir :=
  ⟨d.segments ++ [plan.seg], some plan.tail, []⟩

section
variable {sha256 : Bytes → Bytes} {d : Dir} {l : LedgerState} {sealedEvs es : List Event} {head : Nat}
  {plan : SealPlan} {seg : Segment}

theorem planSeal_eq_ok (h : planSeal sha256 l d head = .ok plan) :
    ∃ t c, d.tail = some t ∧ l.sealedSeq < head ∧
      writeSegment sha256 t (l.sealedSeq + 1) head = .ok c ∧ plan.seg.first = l.sealedSeq + 1 ∧
      plan.seg.last = head ∧ plan.seg.content = c.content ∧ plan.seg.damaged = false ∧
      plan.tail = t.drop c.afterHead ∧ plan.headHash = c.headHash := by
  unfold planSeal at h
  split at h
  · cases h
  split at h
  · cases h
  split at h
  · cases h
  split at h
  · cases h
  split at h
  · cases h
  rename_i hle
  split at h
  · cases h
  rename_i t ht
  split at h
  · cases h
  rename_i c hc
  cases h
  exact ⟨t, c, ht, Nat.lt_of_not_le hle, hc, rfl, rfl, rfl, rfl, rfl, rfl⟩

structure SealedAt (sha256 : Bytes → Bytes) (d : Dir) (l : LedgerState) (sealedEvs es : List Event)
    (plan : SealPlan) (t : Bytes) (epre : List Event) (eh : Event) (epost : List Event) : Prop where
  tail : d.tail = some t
  records : es = epre ++ eh :: epost
  next : plan.seg.first = runNext 1 l.segments
  reconciled : reconcileTail sha256 plan.seg t = .ok plan.tail
  streamed : ∃ rs, streamTail sha256 t (some plan.seg) = ⟨rs, none⟩ ∧
    rs.map Reading.event = epost.map markTail
  result : InOrder sha256 (plan.result d) (sealed l plan)
    (sealedEvs ++ (epre.map unsigned ++ [eh]).map plan.seg.mark) epost

theorem Copied.overlaps {ls : List Line} {c : SegmentCopy} {pre : List Line} {hl : Line}
    {post : List Line} {epre : List Event} {eh : Event} {epost : List Event} {bs : List Bytes}
    (h : Copied sha256 head ls es c pre hl post epre eh epost bs)
    (hseg : Holds seg.content (epre.map unsigned ++ [eh])) (hlast : seg.last = head)
    (hseq : es.map Event.seq = List.range' seg.first es.length) :
    ∃ e oc, es.head? = some e ∧ e.seq = seg.first ∧ newOverlapChecker seg e.seq = .ok oc ∧
      Overlaps oc pre hl epre eh ∧ oc.seg = seg := by
  obtain ⟨s, ss, hss⟩ : ∃ s ss, epre.map unsigned ++ [eh] = s :: ss := by cases epre <;> simp
  rw [hss] at hseg
  obtain ⟨oc, hoc, hrem, hnext, hocseg⟩ := newOverlapChecker_first hseg
  have hes : es = (epre ++ [eh]) ++ epost := by rw [h.records, append_assoc]; rfl
  obtain ⟨e, hhead, heseq⟩ : ∃ e, es.head? = some e ∧ e.seq = s.seq := by
    rw [h.records]
    cases epre with
    | nil => exact ⟨eh, rfl, congrArg Event.seq (List.cons.inj hss).1⟩
    | cons e epre =>
      refine ⟨e, rfl, ?_⟩
      rw [← (List.cons.inj hss).1]
      rfl
  have hfirst : e.seq = seg.first := by
    cases es with
    | nil => cases hhead
    | cons _ es =>
      cases hhead
      exact (List.cons.inj hseq).1
  refine ⟨e, oc, hhead, hfirst, heseq ▸ hoc, ⟨hss ▸ hrem, h.before, h.headLine, ?_, ?_⟩, hocseg⟩
  · rw [hes, map_append, length_append, ← range'_append_1] at hseq
    rw [hnext, ← heseq, hfirst, append_inj_left hseq (by simp)]
    simp
  · rw [hocseg, hlast, h.seq]

section
variable {t : Bytes} {seg : Segment} {pre : List Line} {hl : Line} {post : List Line}
  {epre : List Event} {eh e : Event} {epost : List Event} {oc : OverlapChecker}

section
variable (hholds : Holds t es) (hlines : (scan maxEventLineBytes t).1 = pre ++ hl :: post)
  (hhead : es.head? = some e) (heseq : e.seq = seg.first)
include hholds hlines hhead heseq

theorem reconcileTail_overlap (hoc : newOverlapChecker seg e.seq = .ok oc)
    (hover : Overlaps oc pre hl epre eh) :
    reconcileTail sha256 seg t = .ok (t.drop (hl.offset + hl.size)) := by
  have hle : ¬seg.last < e.seq := by
    have := seg.first_le
    omega
  have hge : ¬e.seq < seg.first := by omega
  unfold reconcileTail
  rw [firstRecord_holds hholds, hhead]
  simp only [bind, Except.bind, if_neg hle, if_neg hge, hoc, hlines, overlapEnd_overlaps hover,
    Option.getD_some]

theorem streamTail_overlap (hoc : newOverlapChecker seg e.seq = .ok oc) (hocseg : oc.seg = seg)
    (hover : Overlaps oc pre hl epre eh) (hpost : Decodes (post.map Line.text) epost) :
    ∃ rs, streamTail sha256 t (some seg) = ⟨rs, none⟩ ∧ rs.map Reading.event = epost.map markTail := by
  obtain ⟨rs, hread, hrs⟩ := exists_readings.mpr ⟨epost, hpost, rfl⟩
  refine ⟨rs, ?_, hrs⟩
  have hle : e.seq ≤ seg.last := heseq ▸ seg.first_le
  -- the first record opens the overlap; its step is the one of a walk already inside
  have hstep : tailStep sha256 (some seg) .start true e =
      tailStep sha256 (some seg) (.overlap oc) true e := by
    simp only [tailStep]
    rw [if_pos hle, if_pos hle, if_neg (by simp [heseq]), hoc]
  have hstart : tailWalk sha256 (some seg) (tailReadErr t) .start true (pre ++ hl :: post) =
      tailWalk sha256 (some seg) (tailReadErr t) (.overlap oc) true (pre ++ hl :: post) := by
    cases hpl : pre ++ hl :: post with
    | nil => simp at hpl
    | cons x xs =>
      have hd := hholds.decodes
      rw [hlines, hpl] at hd
      obtain ⟨e', es', hde, -, rfl⟩ := forall₂_cons_left_iff.mp hd
      cases hhead
      simp only [tailWalk, hde, hstep]
  unfold streamTail
  rw [hlines, hstart]
  subst hocseg
  rw [tailWalk_overlaps hover]
  exact (tailWalk_eq_ok (.inr rfl)).mpr ⟨tailReadErr_eq_none.mpr hholds.fits, hread⟩

end

end

variable {epre epost : List Event} {eh : Event} {t : Bytes}

theorem advance_sealed
    (h : l = LedgerState.advance sha256 { l with lastSeq := l.sealedSeq, lastHash := l.sealedHash }
      (epre ++ eh :: epost))
    (hseq : eh.seq = plan.seg.last) (hhash : entryHash sha256 eh = plan.headHash) :
    sealed l plan = LedgerState.advance sha256 { sealed l plan with
      lastSeq := (sealed l plan).sealedSeq, lastHash := (sealed l plan).sealedHash } epost := by
  unfold LedgerState.advance at h ⊢
  rw [LedgerState.ext_iff]
  cases hpost : epost.getLast? with
  | none =>
    rw [getLast?_eq_none_iff] at hpost
    subst hpost
    rw [getLast?_concat, LedgerState.ext_iff] at h
    exact ⟨h.1.trans hseq, h.2.1.trans hhash, rfl, rfl, rfl, rfl, rfl, rfl⟩
  | some z =>
    have hz : (epre ++ eh :: epost).getLast? = some z := by
      rw [getLast?_append, getLast?_cons, hpost]
      rfl
    rw [hz, LedgerState.ext_iff] at h
    exact ⟨h.1, h.2.1, rfl, rfl, rfl, rfl, rfl, rfl⟩

theorem InOrder.publish (h : InOrder sha256 d l sealedEvs es) {part : List Event}
    (hes : es = epre ++ eh :: epost)
    (hc : Chained sha256 l.sealedSeq prev es) (hnext : plan.seg.first = runNext 1 l.segments)
    (hsegment : SegmentHolds plan.seg (part ++ [eh])) (hhash : entryHash sha256 eh = plan.headHash)
    (hholds : Holds plan.tail epost) (hterm : Terminated plan.tail) :
    InOrder sha256 (plan.result d) (sealed l plan) (sealedEvs ++ (part ++ [eh]).map plan.seg.mark) epost := by
  have hchain : Chained sha256 eh.seq (entryHash sha256 eh) epost := .behind (hes ▸ hc)
  obtain ⟨z, hz, hclose⟩ := hsegment.closed
  obtain rfl : eh = z := by simpa using hz
  have hlast? : (sealed l plan).segments.getLast? = some plan.seg := by simp [sealed]
  obtain ⟨rs, hrs, rfl⟩ := h.segments
  obtain ⟨ps, hps, hpe⟩ := streamSegment_holds.mpr ⟨_, hsegment, rfl⟩
  refine ⟨rfl, (listSegments_publish h.listed hnext).2 _ _, ?_, ?_, ⟨plan.tail, rfl, hholds, hterm⟩,
    ?_, ?_, advance_sealed (hes ▸ h.last) hclose.1 hhash, h.fresh⟩
  · refine ⟨rs ++ ps, streamSegments_append_ok.mpr ⟨rs, ps, hrs, ?_, rfl⟩, by rw [map_append, hpe]⟩
    simp [streamSegments, hps, Walk.andThen]
  · simp only [SealedEnd, hlast?]
    exact ⟨_, eh, hsegment, by simp, rfl, hhash.symm⟩
  · intro _ e he
    cases epost with
    | nil => cases he
    | cons e' epost =>
      cases he
      obtain ⟨hs, hp', -⟩ := hchain
      exact ⟨by rw [hs, hclose.1]; rfl, hp'.trans hhash⟩
  · intro seg hseg e he
    cases hlast?.symm.trans hseg
    have hmem : e.seq ∈ List.range' (eh.seq + 1) epost.length := hchain.seqs ▸ List.mem_map_of_mem he
    rw [mem_range'_1, hclose.1] at hmem
    omega

theorem InOrder.sealedAt (h : InOrder sha256 d l sealedEvs es)
    (hc : Chained sha256 l.sealedSeq prev es) (hp : planSeal sha256 l d head = .ok plan) :
    ∃ t epre eh epost, SealedAt sha256 d l sealedEvs es plan t epre eh epost := by
  obtain ⟨t, c, ht, hlt, hwrite, hfirst, hlast, hcontent, hsound, htail, hhash⟩ := planSeal_eq_ok hp
  obtain ⟨t', ht', hholds, hterm⟩ := h.tail
  cases ht.symm.trans ht'
  obtain ⟨pre, hl, post, epre, eh, epost, bs, hcopy⟩ :=
    copyRecords_copied hholds.decodes hc.seqs (le_refl _) hlt hwrite
  have hsegHolds : Holds plan.seg.content (epre.map unsigned ++ [eh]) := hcontent ▸ hcopy.holds
  obtain ⟨e, oc, hhead, heseq, hoc, hover, hocseg⟩ := hcopy.overlaps hsegHolds hlast (hfirst ▸ hc.seqs)
  have hsegment : SegmentHolds plan.seg (epre.map unsigned ++ [eh]) := by
    refine ⟨hsegHolds, hsound, ?_, eh, by simp, hcopy.seq.trans hlast.symm, hcopy.type, hcopy.signed⟩
    intro s hs
    rw [← heseq]
    rw [hcopy.records] at hhead
    cases epre with
    | nil => cases hhead; cases hs; rfl
    | cons => cases hhead; cases hs; rfl
  have hnext : plan.seg.first = runNext 1 l.segments := hfirst.trans h.sealedEnd.runNext.symm
  refine ⟨t, epre, eh, epost, ht, hcopy.records, hnext, ?_,
    streamTail_overlap hholds hcopy.lines hhead heseq hoc hocseg hover hcopy.behind, ?_⟩
  · rw [htail, hcopy.afterHead]
    exact reconcileTail_overlap hholds hcopy.lines hhead heseq hoc hover
  · obtain ⟨htexts, hlong⟩ := scan_drop (Prod.ext hcopy.lines hholds.fits)
    exact h.publish hcopy.records hc hnext hsegment (hcopy.headHash.symm.trans hhash.symm)
      (by rw [htail, hcopy.afterHead]; exact ⟨hlong, htexts ▸ hcopy.behind⟩)
        (htail ▸ hcopy.afterHead ▸ hterm.drop_line (Prod.ext hcopy.lines rfl))

/-! ### A seal cut short -/

theorem SealedAt.interrupted (h : InOrder sha256 d l sealedEvs es)
    (hs : SealedAt sha256 d l sealedEvs es plan t epre eh epost) (k : Nat) :
    openLedger sha256 ((plan.steps.take k).foldl FsOp.apply d) = .ok (l, d) ∨
      openLedger sha256 ((plan.steps.take k).foldl FsOp.apply d) = .ok (sealed l plan, plan.result d) := by
  obtain ⟨hfilter, hlisted⟩ := listSegments_publish h.listed hs.next
  obtain ⟨segments, tail, temps⟩ := d
  cases hs.tail
  have hresult := hs.result
  have hopened := hresult.openLedger
  obtain ⟨t', ht', hholds', -⟩ := hresult.tail
  cases ht'
  have hlast : (l.segments ++ [plan.seg]).getLast? = some plan.seg := by simp
  have hagain : reconcileTail sha256 plan.seg plan.tail = .ok plan.tail :=
    reconcileTail_behind hholds' (hlast ▸ hresult.behind)
  have hboth (temps temps' : List Bytes) : openLedger sha256 ⟨segments ++ [plan.seg], some t, temps⟩ =
      openLedger sha256 ⟨segments ++ [plan.seg], some plan.tail, temps'⟩ := by
    simp only [openLedger, sweepDebris, hlisted, openSealed, hlast, hs.reconciled, hagain]
  match k with
  | 0 => exact .inl (h.openLedger [])
  | 1 => exact .inl (h.openLedger [plan.seg.content])
  | 2 =>
    refine .inr ?_
    simp only [SealPlan.steps, List.take, List.foldl, FsOp.apply, hfilter]
    rw [hboth _ []]
    exact hopened []
  | 3 =>
    refine .inr ?_
    simp only [SealPlan.steps, List.take, List.foldl, FsOp.apply, hfilter]
    rw [hboth _ []]
    exact hopened []
  | n + 4 =>
    refine .inr ?_
    simp only [SealPlan.steps, List.take, take_nil, List.foldl, FsOp.apply, hfilter]
    exact hopened _

end

/-- A seal cut short after any of its steps: the record opens again, with its end where
it was, and reads as the same entries. A refused seal changes no file. -/
theorem seal_crash_safe {sha256 : Bytes → Bytes} {d₀ d : Dir} {l : LedgerState} {evs : List Event}
    (hopen : openLedger sha256 d₀ = .ok (l, d)) (hstream : stream sha256 d none = (evs, none))
    (hchain : Chained sha256 0 [] evs) (head : Nat) :
    (∀ plan, planSeal sha256 l d head = .ok plan → ∀ k, ∃ lk dk evsk,
      openLedger sha256 ((plan.steps.take k).foldl FsOp.apply d) = .ok (lk, dk) ∧
        stream sha256 dk none = (evsk, none) ∧ evsk.map bare = evs.map bare ∧
        evsk.map (entryHash sha256) = evs.map (entryHash sha256) ∧
        lk.lastSeq = l.lastSeq ∧ lk.lastHash = l.lastHash) ∧
      ∀ io e, (l.seal sha256 d head io).1 = .error e → (l.seal sha256 d head io).2.2 = d := by
  constructor
  · intro plan hplan k
    obtain ⟨sealedEvs, es, hin, rfl⟩ := inOrder_of_open hopen hstream
    obtain ⟨prev, hes⟩ := hin.chained hchain
    obtain ⟨t, epre, eh, epost, hs⟩ := hin.sealedAt hes hplan
    rcases hs.interrupted hin k with hk | hk
    · exact ⟨l, d, _, hk, hin.stream, rfl, rfl, rfl, rfl⟩
    · refine ⟨sealed l plan, plan.result d, _, hk, hs.result.stream, ?_, ?_, rfl, rfl⟩
      · rw [hs.records]
        simp only [map_append, map_cons, List.map_map, append_assoc]
        rfl
      · rw [hs.records]
        simp only [map_append, List.map_map, append_assoc]
        rfl
  · intro io e he
    unfold LedgerState.seal at he ⊢
    split at he
    · rfl
    · cases io with
      | fine => cases he
      | late f => cases he
      | early e => rfl

def unsealedDir : Dir where
  segments := []
  tail := some (newline :: (lineOf (signRecord openingRecord) ++
    0x20 :: newline :: lineOf (headRecord (bytesOf "\x7b\x7d"))))
  temps := []

def sealable (d : Dir) (head : Nat) : Bool := match openLedger checksum.sha256 d with
  | .error _ => false
  | .ok (l, d) =>
    match stream checksum.sha256 d none with
    | (evs, none) =>
      decide (Chained checksum.sha256 0 [] evs) && (planSeal checksum.sha256 l d head).isOk
    | _ => false

theorem seal_crash_safe_unsealed : ∃ l d plan, planSeal checksum.sha256 l d 2 = .ok plan ∧
    openLedger checksum.sha256 unsealedDir = .ok (l, d) ∧ ∀ k, ∃ lk dk evsk,
      openLedger checksum.sha256 ((plan.steps.take k).foldl FsOp.apply d) = .ok (lk, dk) ∧
        stream checksum.sha256 dk none = (evsk, none) := by
  have hok : sealable unsealedDir 2 := by decide +kernel
  unfold sealable at hok
  split at hok
  · cases hok
  rename_i l d hopen
  split at hok
  · rename_i evs hstream
    rw [Bool.and_eq_true, decide_eq_true_eq] at hok
    cases hplan : planSeal checksum.sha256 l d 2 with
    | error e => simp [hplan, Except.toBool] at hok
    | ok plan =>
      refine ⟨l, d, plan, hplan, hopen, fun k => ?_⟩
      obtain ⟨lk, dk, evsk, hk, hs, -⟩ := (seal_crash_safe hopen hstream hok.1 2).1 plan hplan k
      exact ⟨lk, dk, evsk, hk, hs⟩
  · cases hok

end AiiOs.Ledger
