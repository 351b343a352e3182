import AiiOs.Ledger.Open
import AiiOs.Ledger.Reading
import AiiOs.Lib.Fold
import Mathlib.Data.List.Induction

/-! What `openLedger` requires of the files, and the state it leaves. -/

namespace AiiOs.Ledger
open Lib List

/-! ### The segment set -/

/-- The number behind a run of segments that starts at `n`. -/
def runNext (n : Nat) (segs : List Segment) : Nat := match segs.getLast? with
  | none => n
  | some s => s.last + 1

variable {seg : Segment} {segs : List Segment} {d : Dir} {sha256 : Bytes → Bytes}
  {es : List Event} {l l' : LedgerState}

variable {n : Nat} {ts : List Bytes} {first : Bool} {d₀ : Dir}

theorem checkRun_concat :
    checkRun n (segs ++ [seg]) = .ok () ↔ checkRun n segs = .ok () ∧ seg.first = runNext n segs := by
  induction segs generalizing n with
  | nil => by_cases h : seg.first = n <;> simp [checkRun, runNext]
  | cons s segs ih =>
    rw [cons_append, checkRun, checkRun]
    by_cases h : s.first = n
    · rw [if_neg (not_not_intro h), if_neg (not_not_intro h), ih]
      have : runNext (s.last + 1) segs = runNext n (s :: segs) := by
        unfold runNext
        rw [getLast?_cons]
        cases segs.getLast? <;> rfl
      rw [this]
    · rw [if_pos h, if_pos h]
      simp

theorem checkRun_last_lt (h : checkRun n segs = .ok ()) : ∀ s ∈ segs, s.last < runNext n segs := by
  induction segs using List.reverseRecOn with
  | nil => simp
  | append_singleton segs seg ih =>
    obtain ⟨hrun, hfirst⟩ := checkRun_concat.mp h
    have hnext : runNext n (segs ++ [seg]) = seg.last + 1 := by simp [runNext]
    intro s hs
    rw [hnext]
    rcases mem_append.mp hs with hs | hs
    · have := ih hrun s hs
      have := seg.first_le
      omega
    · rw [mem_singleton.mp hs]
      exact Nat.lt_succ_self _

theorem listSegments_eq_ok :
    listSegments d = .ok segs ↔ segs = segmentFiles d ∧ checkRun 1 segs = .ok () := by
  rw [listSegments, map_eq_ok]
  constructor
  · rintro ⟨u, h, rfl⟩
    exact ⟨rfl, h⟩
  · rintro ⟨rfl, h⟩
    exact ⟨(), h, rfl⟩

theorem listSegments_publish (h : listSegments d = .ok segs) (hfirst : seg.first = runNext 1 segs) :
    d.segments.filter (fun s => s.name ≠ seg.name) = d.segments ∧
      ∀ tail temps, listSegments ⟨d.segments ++ [seg], tail, temps⟩ = .ok (segs ++ [seg]) := by
  obtain ⟨rfl, hrun⟩ := listSegments_eq_ok.mp h
  have hlt : ∀ s ∈ d.segments, s.last < seg.first := by
    intro s hs
    rw [hfirst]
    exact checkRun_last_lt hrun s ((mem_insertionSort _).mpr hs)
  constructor
  · refine filter_eq_self.mpr fun s hs => ?_
    have hne : s.name ≠ seg.name := by
      intro heq
      have := (Container.segment.inj heq).1
      have := s.first_le
      have := hlt s hs
      omega
    simpa using hne
  · intro tail temps
    refine listSegments_eq_ok.mpr ⟨?_, checkRun_concat.mpr ⟨hrun, hfirst⟩⟩
    refine (insertionSort_concat ?_).symm
    intro s hs
    have := s.first_le
    have := hlt s hs
    omega

/-! ### The end of the sealed run -/

theorem segmentEnd_holds {z : Event} (h : SegmentHolds seg es) (hz : es.getLast? = some z) :
    segmentEnd sha256 seg = .ok (z.seq, entryHash sha256 z) := by
  obtain ⟨rs, hrs, heq⟩ := streamSegment_holds.mpr ⟨es, h, rfl⟩
  unfold segmentEnd Walk.events
  rw [hrs]
  rw [heq, getLast?_map, hz]
  rfl

theorem segmentEnd_eq_ok {seq : Nat} {hash : Bytes} (h : segmentEnd sha256 seg = .ok (seq, hash)) :
    ∃ es z, SegmentHolds seg es ∧ es.getLast? = some z ∧ seq = seg.last ∧ hash = entryHash sha256 z := by
  have herr : (streamSegment seg).err = none := by
    unfold segmentEnd at h
    cases he : (streamSegment seg).err with
    | none => rfl
    | some e =>
      rw [he] at h
      cases h
  obtain ⟨es, hes, -⟩ := streamSegment_holds.mp
    ⟨(streamSegment seg).readings, (congrArg (Walk.mk _) herr : streamSegment seg = ⟨_, none⟩), rfl⟩
  obtain ⟨z, hz, hclose⟩ := hes.closed
  rw [segmentEnd_holds hes hz] at h
  cases h
  exact ⟨es, z, hes, hz, hclose.1, rfl⟩

/-! ### The tail behind it -/

def Terminated (t : Bytes) : Prop := ∀ p ∈ splitLines t, trimSpace p ≠ [] → terminated p

section
variable (sha256 : Bytes → Bytes) (l : LedgerState)

def LedgerState.advance (es : List Event) : LedgerState := match es.getLast? with
  | none => l
  | some z => { l with lastSeq := z.seq, lastHash := entryHash sha256 z }

def Continues (l : LedgerState) (es : List Event) : Prop :=
  0 < l.sealedSeq → ∀ e ∈ es.head?, e.seq = l.sealedSeq + 1 ∧ e.prev = l.sealedHash

theorem LedgerState.advance_cons (e : Event) (es : List Event) : l.advance sha256 (e :: es) =
      LedgerState.advance sha256 { l with lastSeq := e.seq, lastHash := entryHash sha256 e } es := by
  unfold LedgerState.advance
  rw [getLast?_cons]
  cases es.getLast? <;> rfl

theorem LedgerState.advance_eq (es : List Event) : l.advance sha256 es = { l with
        lastSeq := (l.advance sha256 es).lastSeq, lastHash := (l.advance sha256 es).lastHash } := by
  unfold LedgerState.advance
  cases es.getLast? <;> rfl

end

theorem readChainState_pieces (h : Decodes ((ts.filter fun p => trimSpace p ≠ []).map trimSpace) es) :
    readChainState sha256 first l ts = .ok l' ↔
      (∀ p ∈ ts, trimSpace p ≠ [] → terminated p) ∧ (first → Continues l es) ∧ l' = l.advance sha256 es := by
  induction ts generalizing es first l with
  | nil =>
    cases h
    rw [readChainState]
    simpa [Continues, LedgerState.advance] using eq_comm
  | cons p ts ih =>
    rw [readChainState, forall_mem_cons]
    by_cases hblank : trimSpace p = []
    · rw [filter_cons_of_neg (by simpa using hblank)] at h
      simp [ih h, hblank]
    · rw [filter_cons_of_pos (by simpa using hblank)] at h
      obtain ⟨e, es, hd, hes, rfl⟩ := forall₂_cons_left_iff.mp h
      rw [if_neg hblank]
      by_cases hterm : terminated p
      · rw [if_neg (by simpa using hterm), hd]
        dsimp only
        have hfirst : (first ∧ 0 < l.sealedSeq ∧
            (e.seq ≠ l.sealedSeq + 1 ∨ e.prev ≠ l.sealedHash)) ↔ ¬(first → Continues l (e :: es)) := by
          simp only [Continues, head?_cons, Option.mem_def, Option.some.injEq, forall_eq']
          tauto
        by_cases hcont : first → Continues l (e :: es)
        · rw [if_neg (by rw [hfirst]; exact not_not_intro hcont), ih hes, LedgerState.advance_cons]
          refine ⟨fun h => ⟨⟨fun _ => hterm, h.1⟩, hcont, h.2.2⟩, fun h => ⟨h.1.2, nofun, h.2.2⟩⟩
        · rw [if_pos (hfirst.mpr hcont)]
          simp [hcont]
      · simp [hterm, hblank]

variable {t : Bytes}

theorem readChainState_holds (h : Holds t es) :
    readChainState sha256 first l (splitLines t) = .ok l' ↔
      Terminated t ∧ (first → Continues l es) ∧ l' = l.advance sha256 es :=
  readChainState_pieces (scan_texts h.fits ▸ h.decodes)

/-! ### A directory in order -/

def SealedEnd (sha256 : Bytes → Bytes) (l : LedgerState) : Prop := match l.segments.getLast? with
  | none => l.sealedSeq = 0 ∧ l.sealedHash = []
  | some newest =>
    ∃ es z, SegmentHolds newest es ∧ es.getLast? = some z ∧ l.sealedSeq = newest.last ∧
      l.sealedHash = entryHash sha256 z

def LedgerState.Fresh (l : LedgerState) : Prop := l.sealErr = none ∧ l.frozenReason = none ∧ l.closed = false

/-- The files of a record that is open: the segments read as `sealedEvs`, the tail holds
`es` behind them, and the state is the one these files have. -/
structure InOrder (sha256 : Bytes → Bytes) (d : Dir) (l : LedgerState) (sealedEvs es : List Event) :
    Prop where
  temps : d.temps = []
  listed : listSegments d = .ok l.segments
  segments : ∃ rs, streamSegments l.segments = ⟨rs, none⟩ ∧ rs.map Reading.event = sealedEvs
  sealedEnd : SealedEnd sha256 l
  tail : ∃ t, d.tail = some t ∧ Holds t es ∧ Terminated t
  continues : Continues l es
  behind : Behind l.segments.getLast? es
  last : l = LedgerState.advance sha256 { l with lastSeq := l.sealedSeq, lastHash := l.sealedHash } es
  fresh : l.Fresh

theorem SealedEnd.runNext (h : SealedEnd sha256 l) : runNext 1 l.segments = l.sealedSeq + 1 := by
  unfold SealedEnd at h
  unfold Ledger.runNext
  cases hl : l.segments.getLast? with
  | none =>
    rw [hl] at h
    rw [h.1]
  | some newest =>
    rw [hl] at h
    obtain ⟨es, z, -, -, hseq, -⟩ := h
    rw [hseq]

theorem firstRecord_holds (h : Holds t es) : firstRecord t = .ok es.head? := by
  obtain ⟨hfits, hdec⟩ := h
  unfold firstRecord
  rcases hs : scan maxEventLineBytes t with ⟨ls, long⟩
  rw [hs] at hfits hdec
  cases hfits
  cases ls with
  | nil =>
    cases hdec
    rfl
  | cons l ls =>
    obtain ⟨e, es, hd, -, rfl⟩ := forall₂_cons_left_iff.mp hdec
    simp only [hd, head?_cons]

theorem reconcileTail_behind {newest : Segment} (h : Holds t es) (hb : Behind (some newest) es) :
    reconcileTail sha256 newest t = .ok t := by
  unfold reconcileTail
  rw [firstRecord_holds h]
  cases es with
  | nil => rfl
  | cons e es =>
    have : newest.last < e.seq := hb newest rfl e (mem_cons_self ..)
    simp only [head?_cons, bind, Except.bind, if_pos this]

variable {sealedEvs : List Event}

/-- Opening a directory in order gives its state back and changes no file of the record. -/
theorem InOrder.openLedger (h : InOrder sha256 d l sealedEvs es) (temps : List Bytes) :
    openLedger sha256 { d with temps := temps } = .ok (l, d) := by
  obtain ⟨segments, tail, temps'⟩ := d
  obtain ⟨t, rfl, hholds, hterm⟩ := h.tail
  cases h.temps
  have hopen : openSealed sha256 (some t) l.segments =
      .ok ({ l with lastSeq := l.sealedSeq, lastHash := l.sealedHash }, t) := by
    have hend := h.sealedEnd
    obtain ⟨h1, h2, h3⟩ := h.fresh
    unfold SealedEnd at hend
    unfold openSealed
    cases hl : l.segments.getLast? with
    | none =>
      rw [hl] at hend
      have hnil : l.segments = [] := getLast?_eq_none_iff.mp hl
      simp [hend.1, hend.2, hnil, h1, h2, h3]
    | some newest =>
      rw [hl] at hend
      obtain ⟨es', z, hseg, hz, hseq, hhash⟩ := hend
      obtain ⟨z', hz', hclose⟩ := hseg.closed
      cases hz.symm.trans hz'
      have hbehind := h.behind
      rw [hl] at hbehind
      simp only [segmentEnd_holds hseg hz, reconcileTail_behind hholds hbehind]
      simp [hseq, hhash, hclose.1, h1, h2, h3]
  unfold Ledger.openLedger sweepDebris
  have hlisted : listSegments ⟨segments, some t, []⟩ = .ok l.segments := h.listed
  simp only [hlisted, hopen]
  have hread : readChainState sha256 true { l with lastSeq := l.sealedSeq, lastHash := l.sealedHash }
      (splitLines t) = .ok l :=
    (readChainState_holds hholds).mpr ⟨hterm, fun _ => h.continues, h.last⟩
  simp only [hread]

theorem InOrder.stream (h : InOrder sha256 d l sealedEvs es) :
    stream sha256 d none = (sealedEvs ++ es.map markTail, none) := by
  obtain ⟨t, ht, hholds, -⟩ := h.tail
  obtain ⟨a, ha, rfl⟩ := h.segments
  obtain ⟨b, hb, hbe⟩ := streamTail_behind hholds h.behind
  refine stream_eq_ok.mpr ⟨a ++ b, streamLines_eq_ok.mpr ?_, by rw [map_append, hbe]⟩
  exact ⟨l.segments, t, a, b, h.listed, ht, ha, hb, rfl⟩

/-! ### What opening and reading establish -/

theorem readChainState_first (h : readChainState sha256 true l ts = .ok l')
    (hs : 0 < l.sealedSeq) {p : Bytes} (hp : (ts.filter fun p => trimSpace p ≠ []).head? = some p) :
    ∃ e, decodeEvent (trimSpace p) = .ok e ∧ e.seq = l.sealedSeq + 1 := by
  induction ts with
  | nil => cases hp
  | cons q ts ih =>
    rw [readChainState] at h
    by_cases hblank : trimSpace q = []
    · rw [if_pos hblank] at h
      rw [filter_cons_of_neg (by simpa using hblank)] at hp
      exact ih h hp
    · rw [filter_cons_of_pos (by simpa using hblank)] at hp
      cases hp
      split_ifs at h
      split at h
      · cases h
      · rename_i e he
        split_ifs at h with hcont
        refine ⟨e, he, ?_⟩
        by_contra hne
        exact hcont ⟨rfl, hs, .inl hne⟩

theorem openSealed_eq_ok {tail : Option Bytes} (h : openSealed sha256 tail segs = .ok (l, t)) :
    l.segments = segs ∧ SealedEnd sha256 l ∧ l.Fresh ∧ l.lastSeq = l.sealedSeq ∧
      l.lastHash = l.sealedHash := by
  unfold openSealed at h
  split at h
  · rename_i hl
    cases h
    have hnil := getLast?_eq_none_iff.mp hl
    exact ⟨hnil.symm, by simp [SealedEnd], ⟨rfl, rfl, rfl⟩, rfl, rfl⟩
  · rename_i newest hl
    split at h
    · cases h
    · rename_i seq hash hend
      obtain ⟨es, z, hseg, hz, rfl, rfl⟩ := segmentEnd_eq_ok hend
      have hstate : l = ⟨newest.last, entryHash sha256 z, newest.last, entryHash sha256 z, segs, none,
          none, false⟩ := by
        split at h
        · cases h
          rfl
        · split at h
          · cases h
          · cases h
            rfl
      subst hstate
      refine ⟨rfl, ?_, ⟨rfl, rfl, rfl⟩, rfl, rfl⟩
      simpa only [SealedEnd, hl, true_and] using ⟨es, z, hseg, hz, rfl⟩

theorem openLedger_eq_ok (h : openLedger sha256 d₀ = .ok (l, d)) :
    ∃ l₀ t, d = ⟨d₀.segments, some t, []⟩ ∧ listSegments d = .ok l₀.segments ∧
      SealedEnd sha256 l₀ ∧ l₀.Fresh ∧ l₀.lastSeq = l₀.sealedSeq ∧ l₀.lastHash = l₀.sealedHash ∧
      readChainState sha256 true l₀ (splitLines t) = .ok l := by
  unfold openLedger sweepDebris at h
  dsimp only at h
  split at h
  · cases h
  · rename_i segs hsegs
    split at h
    · cases h
    · rename_i l₀ t hopen
      split at h
      · cases h
      · rename_i l' hread
        cases h
        obtain ⟨hseg, hend, hfresh, hseq, hhash⟩ := openSealed_eq_ok hopen
        exact ⟨l₀, t, rfl, by rw [hseg]; exact hsegs, hend, hfresh, hseq, hhash, hread⟩

theorem SealedEnd.pos (h : SealedEnd sha256 l) (hl : l.segments.getLast? = some seg) :
    l.sealedSeq = seg.last ∧ 0 < l.sealedSeq := by
  unfold SealedEnd at h
  rw [hl] at h
  obtain ⟨-, -, -, -, hseq, -⟩ := h
  have := seg.first_pos
  have := seg.first_le
  exact ⟨hseq, by omega⟩

theorem inOrder_of_open {evs : List Event} (hopen : openLedger sha256 d₀ = .ok (l, d))
    (hstream : stream sha256 d none = (evs, none)) :
    ∃ sealedEvs es, InOrder sha256 d l sealedEvs es ∧ evs = sealedEvs ++ es.map markTail := by
  obtain ⟨l₀, t, rfl, hlist, hend, hfresh, hseq, hhash, hread⟩ := openLedger_eq_ok hopen
  obtain ⟨rs, hrs, rfl⟩ := stream_eq_ok.mp hstream
  obtain ⟨segs, t', a, b, hsegs, ht, ha, hb, rfl⟩ := streamLines_eq_ok.mp hrs
  cases hlist.symm.trans hsegs
  cases ht
  have hfirst : ∀ seg, l₀.segments.getLast? = some seg →
      ∀ x ∈ (scan maxEventLineBytes t).1.head?, ∀ e, decodeEvent x.text = .ok e → seg.last < e.seq := by
    intro seg hseg x hx e he
    obtain ⟨hlast, hpos⟩ := hend.pos hseg
    obtain ⟨p, hp, htext⟩ := scanTokens_head hx
    obtain ⟨e', hd, hseq'⟩ := readChainState_first hread hpos hp
    rw [htext, hd] at he
    cases he
    omega
  obtain ⟨es, hholds, hbehind, hbe⟩ := (streamTail_holds hfirst).mp ⟨b, hb, rfl⟩
  obtain ⟨hterm, hcont, hadv⟩ := (readChainState_holds hholds).mp hread
  obtain ⟨hl₀, hsegments, hfresh'⟩ : { l with lastSeq := l.sealedSeq, lastHash := l.sealedHash } = l₀ ∧
      l.segments = l₀.segments ∧ l.Fresh := by
    have hsame : { l₀ with lastSeq := l₀.sealedSeq, lastHash := l₀.sealedHash } = l₀ :=
      LedgerState.ext hseq.symm hhash.symm rfl rfl rfl rfl rfl rfl
    rw [hadv, LedgerState.advance_eq]
    exact ⟨hsame, rfl, hfresh⟩
  refine ⟨a.map Reading.event, es, ?_, by rw [map_append, hbe]⟩
  have hcont' := hcont rfl
  rw [← hl₀] at hend hcont' hadv
  exact ⟨rfl, hsegments ▸ hlist, ⟨a, hsegments ▸ ha, rfl⟩, hend, ⟨t, rfl, hholds, hterm⟩, hcont',
    hsegments ▸ hbehind, hadv, hfresh'⟩

end AiiOs.Ledger
