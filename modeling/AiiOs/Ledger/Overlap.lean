import AiiOs.Ledger.Seal
import AiiOs.Ledger.Opening
import AiiOs.Ledger.Chain

/-! What a seal writes, and how the readers resolve the records that stand both in
the new segment and in the tail. -/

namespace AiiOs.Ledger
open Lib List

/-! ### Lines of records -/

variable {hl l : Line} {t : Bytes} {post pre : List Line} {sha256 : Bytes → Bytes}
  {epost epre es ss : List Event} {c : SegmentCopy} {eh s : Event} {oc : OverlapChecker} {e : Event}
  {long : Bool}

theorem writable_line (hl : l ∈ (scan maxEventLineBytes t).1) (hd : decodeEvent l.text = .ok e) :
    Writable maxEventLineBytes l.text := by
  obtain ⟨tok, -, htext, -⟩ := scan_line hl
  obtain ⟨m, hm⟩ := decodeEvent_braces hd (htext ▸ trimmed_trimSpace tok)
  exact writable_of_line hl hm

theorem unsigned_line (hl : l ∈ (scan maxEventLineBytes t).1) (hd : decodeEvent l.text = .ok e)
    {b : Bytes} (hb : marshalJSON (unsigned e) = .ok b) :
    Writable maxEventLineBytes b ∧ decodeEvent b = .ok (unsigned e) := by
  obtain ⟨hs, hu⟩ := decodeEvent_storable hd
  obtain ⟨line, hline, hdec⟩ := decodeEvent_marshalJSON hs.unsigned (e := unsigned e) hu
  obtain ⟨ms, hp, hprof, -⟩ := hs.unsigned.payload
  obtain ⟨m, hm, hnl⟩ := marshalJSON_line hp hprof
  have hlen := unsigned_length_le hd hb
  have hroom := (writable_line hl hd).room
  cases hline.symm.trans hb
  cases hm.symm.trans hb
  exact ⟨⟨hnl, trimSpace_braces m, by simp, by omega⟩, hdec⟩

theorem Terminated.drop_line (ht : Terminated t) (h : scan maxEventLineBytes t = (pre ++ l :: post, long)) :
    Terminated (t.drop (l.offset + l.size)) := by
  obtain ⟨ts₁, ts₂, hsplit, hdrop, -⟩ := Lib.drop_line h
  intro p hp
  rw [hdrop] at hp
  exact ht p (hsplit ▸ mem_append_right _ hp)

/-! ### The copy -/

/-- The tail's lines and records around the head of a seal, with the lines written
for the records before it. -/
structure Copied (sha256 : Bytes → Bytes) (head : Nat) (ls : List Line) (es : List Event)
    (c : SegmentCopy) (pre : List Line) (hl : Line) (post : List Line) (epre : List Event)
    (eh : Event) (epost : List Event) (bs : List Bytes) : Prop where
  lines : ls = pre ++ hl :: post
  records : es = epre ++ eh :: epost
  before : Decodes (pre.map Line.text) epre
  headLine : decodeEvent hl.text = .ok eh
  behind : Decodes (post.map Line.text) epost
  written : List.Forall₂ (fun e b => marshalJSON (unsigned e) = .ok b) epre bs
  content : c.content = writeLines (bs ++ [hl.text])
  afterHead : c.afterHead = hl.offset + hl.size
  headHash : c.headHash = entryHash sha256 eh
  seq : eh.seq = head
  type : eh.type = eventSystemWitnessed
  signed : eh.sig ≠ []

variable {head : Nat}

theorem copyRecords_copied {first expect : Nat} {ls : List Line}
    (hd : Decodes (ls.map Line.text) es) (hseq : es.map Event.seq = List.range' expect es.length)
    (hfirst : first ≤ expect) (hle : expect ≤ head)
    (h : copyRecords sha256 first head long expect ls = .ok c) :
    ∃ pre hl post epre eh epost bs, Copied sha256 head ls es c pre hl post epre eh epost bs := by
  induction ls generalizing expect es c with
  | nil => cases h
  | cons l ls ih =>
    obtain ⟨e, es, hde, hds, rfl⟩ := forall₂_cons_left_iff.mp hd
    obtain ⟨hes, hseq⟩ := List.cons.inj hseq
    rw [copyRecords, hde] at h
    dsimp only at h
    rw [if_neg (by omega), if_neg (not_not_intro hes)] at h
    by_cases hhead : e.seq < head
    · split_ifs at h
      split at h
      · cases h
      · rename_i b hb
        split at h
        · cases h
        · rename_i c' hc'
          cases h
          obtain ⟨pre, hl, post, epre, eh, epost, bs, hc⟩ := ih hds hseq (by omega) (by omega) hc'
          exact ⟨l :: pre, hl, post, e :: epre, eh, epost, b :: bs, { hc with
            lines := congrArg (l :: ·) hc.lines
            records := congrArg (e :: ·) hc.records
            before := .cons hde hc.before
            written := .cons hb hc.written
            content := by
              simp only [hc.content, writeLines, cons_append, flatMap_cons, append_assoc, nil_append] }⟩
    · split_ifs at h with htype
      cases h
      rw [not_or, not_not] at htype
      exact ⟨[], l, ls, [], e, es, [], ⟨rfl, rfl, .nil, hde, hds, .nil, by simp [writeLines], rfl, rfl,
        by omega, htype.1, htype.2⟩⟩

variable {bs : List Bytes}

section
variable (h : Copied sha256 head (scan maxEventLineBytes t).1 es c pre hl post epre eh epost bs)
include h

theorem Copied.holds : Holds c.content (epre.map unsigned ++ [eh]) := by
  have hmem : ∀ l ∈ pre, l ∈ (scan maxEventLineBytes t).1 := fun l hl => by
    rw [h.lines]
    exact mem_append_left _ hl
  have hhead : hl ∈ (scan maxEventLineBytes t).1 := by
    rw [h.lines]
    exact mem_append_right _ (mem_cons_self ..)
  -- line by line, the copy is writable and decodes to the record without its signature
  have hcopy : ∀ {pre : List Line} {epre : List Event} {bs : List Bytes},
      (∀ l ∈ pre, l ∈ (scan maxEventLineBytes t).1) → Decodes (pre.map Line.text) epre →
      Forall₂ (fun e b => marshalJSON (unsigned e) = .ok b) epre bs →
      (∀ b ∈ bs, Writable maxEventLineBytes b) ∧ Decodes bs (epre.map unsigned) := by
    intro pre epre bs hin hdec hwritten
    induction hwritten generalizing pre with
    | nil => exact ⟨by simp, .nil⟩
    | cons hb _ ih =>
      obtain ⟨l, pre, rfl⟩ : ∃ l pre', pre = l :: pre' := by
        cases pre with
        | nil => cases hdec
        | cons l pre => exact ⟨l, pre, rfl⟩
      obtain ⟨hd, hdec⟩ := forall₂_cons.mp hdec
      rw [forall_mem_cons] at hin
      obtain ⟨hw, hds⟩ := ih hin.2 hdec
      obtain ⟨hwb, hdb⟩ := unsigned_line hin.1 hd hb
      exact ⟨forall_mem_cons.mpr ⟨hwb, hw⟩, .cons hdb hds⟩
  obtain ⟨hw, hds⟩ := hcopy hmem h.before h.written
  have hall : ∀ x ∈ bs ++ [hl.text], Writable maxEventLineBytes x := by
    intro x hx
    rcases mem_append.mp hx with hx | hx
    · exact hw x hx
    · rw [mem_singleton.mp hx]
      exact writable_line hhead h.headLine
  obtain ⟨htexts, hfits⟩ := scan_writeLines hall
  rw [h.content]
  refine ⟨hfits, ?_⟩
  rw [htexts]
  exact rel_append hds (.cons h.headLine .nil)

end

/-! ### The overlap -/

def Remaining (oc : OverlapChecker) (ss : List Event) : Prop := match oc.pending with
  | some e => ∃ ss', ss = e :: ss' ∧ Decodes (oc.lines.map Line.text) ss'
  | none => Decodes (oc.lines.map Line.text) ss

theorem read_remaining (h : Remaining oc (s :: ss)) :
    ∃ oc', oc.read = .ok (some (s, oc')) ∧ Remaining oc' ss ∧
      oc'.next = oc.next ∧ oc'.seg = oc.seg := by
  obtain ⟨seg, lines, next, pending⟩ := oc
  cases pending with
  | some e =>
    obtain ⟨ss', heq, hd⟩ := h
    cases heq
    exact ⟨_, rfl, hd, rfl, rfl⟩
  | none =>
    have hd : Decodes (lines.map Line.text) (s :: ss) := h
    cases lines with
    | nil => cases hd
    | cons l ls =>
      obtain ⟨hl, hls⟩ := forall₂_cons.mp hd
      refine ⟨⟨seg, ls, next, none⟩, ?_, hls, rfl, rfl⟩
      simp only [OverlapChecker.read, readLines, hl]

theorem check_remaining (sha256 : Bytes → Bytes) {tail : Event} (h : Remaining oc (s :: ss))
    (hnext : tail.seq = oc.next) (hseq : s.seq = tail.seq)
    (hhash : entryHash sha256 s = entryHash sha256 tail) :
    ∃ oc', oc.check sha256 tail = .ok (tail.seq == oc.seg.last, oc') ∧ Remaining oc' ss ∧
      oc'.next = oc.next + 1 ∧ oc'.seg = oc.seg := by
  obtain ⟨oc', hread, hrem, hn, hseg⟩ := read_remaining h
  refine ⟨{ oc' with next := oc.next + 1 }, ?_, hrem, rfl, hseg⟩
  unfold OverlapChecker.check
  rw [if_neg (not_not_intro hnext), hread]
  dsimp only
  rw [if_neg (by simp [hseq, hhash])]

theorem newOverlapChecker_first {seg : Segment} (h : Holds seg.content (s :: ss)) :
    ∃ oc, newOverlapChecker seg s.seq = .ok oc ∧ Remaining oc (s :: ss) ∧ oc.next = s.seq ∧ oc.seg = seg := by
  have hd := h.decodes
  unfold newOverlapChecker Segment.lines
  cases hl : (scan maxEventLineBytes seg.content).1 with
  | nil =>
    rw [hl] at hd
    cases hd
  | cons l ls =>
    rw [hl] at hd
    obtain ⟨hdl, hds⟩ := forall₂_cons.mp hd
    refine ⟨⟨seg, ls, s.seq, some s⟩, ?_, ⟨ss, rfl, hds⟩, rfl, rfl⟩
    simp [seekOverlap, hdl]

/-- What the overlap holds: the segment's records against those of the tail, up to the
end of the segment. -/
structure Overlaps (oc : OverlapChecker) (pre : List Line) (hl : Line) (epre : List Event)
    (eh : Event) : Prop where
  remaining : Remaining oc (epre.map unsigned ++ [eh])
  before : Decodes (pre.map Line.text) epre
  headLine : decodeEvent hl.text = .ok eh
  seqs : (epre ++ [eh]).map Event.seq = List.range' oc.next (epre.length + 1)
  last : eh.seq = oc.seg.last

theorem Overlaps.step {oc : OverlapChecker} {l : Line} {pre : List Line} {hl : Line}
    {epre : List Event} {eh : Event} (h : Overlaps oc (l :: pre) hl (e :: epre) eh)
    (sha256 : Bytes → Bytes) :
    decodeEvent l.text = .ok e ∧ e.seq ≤ oc.seg.last ∧
      ∃ oc', oc.check sha256 e = .ok (false, oc') ∧ Overlaps oc' pre hl epre eh ∧ oc'.seg = oc.seg := by
  obtain ⟨hrem, hbefore, hhl, hseqs, hlast⟩ := h
  obtain ⟨hd, hbefore⟩ := forall₂_cons.mp hbefore
  obtain ⟨hseq, hseqs⟩ := List.cons.inj hseqs
  obtain ⟨oc', hcheck, hrem', hnext, hseg⟩ := check_remaining sha256 hrem hseq rfl rfl
  have hlt : e.seq < oc.seg.last := by
    have hmem : eh.seq ∈ List.range' (oc.next + 1) (epre.length + 1) := hseqs ▸ by simp
    rw [mem_range'_1] at hmem
    omega
  refine ⟨hd, le_of_lt hlt, oc', ?_, ⟨hrem', hbefore, hhl, by rw [hnext]; exact hseqs, ?_⟩, hseg⟩
  · rw [hcheck, beq_eq_false_iff_ne.mpr (ne_of_lt hlt)]
  · rw [hseg]
    exact hlast

theorem Overlaps.finish (h : Overlaps oc pre hl [] eh) (sha256 : Bytes → Bytes) :
    pre = [] ∧ ∃ oc', oc.check sha256 eh = .ok (true, oc') := by
  obtain ⟨hrem, hbefore, -, hseqs, hlast⟩ := h
  have hseq : eh.seq = oc.next := (List.cons.inj hseqs).1
  obtain ⟨oc', hcheck, -⟩ := check_remaining sha256 hrem hseq rfl rfl
  refine ⟨?_, oc', ?_⟩
  · cases pre with
    | nil => rfl
    | cons => cases hbefore
  · rw [hcheck, beq_iff_eq.mpr hlast]

variable {err : Option RecordError}

theorem overlapEnd_overlaps (h : Overlaps oc pre hl epre eh) (post : List Line) :
    overlapEnd sha256 err oc (pre ++ hl :: post) = .ok (some (hl.offset + hl.size)) := by
  induction epre generalizing oc pre with
  | nil =>
    obtain ⟨rfl, oc', hcheck⟩ := h.finish sha256
    simp only [nil_append, overlapEnd, h.headLine, hcheck]
  | cons e epre ih =>
    cases pre with
    | nil => cases h.before
    | cons l pre =>
      obtain ⟨hd, -, oc', hcheck, h', -⟩ := h.step sha256
      simp only [cons_append, overlapEnd, hd, hcheck]
      exact ih h'

theorem tailWalk_overlaps (h : Overlaps oc pre hl epre eh) (first : Bool) (post : List Line) :
    tailWalk sha256 (some oc.seg) err (.overlap oc) first (pre ++ hl :: post) =
      tailWalk sha256 (some oc.seg) err .beyond false post := by
  induction epre generalizing oc pre first with
  | nil =>
    obtain ⟨rfl, oc', hcheck⟩ := h.finish sha256
    simp only [nil_append, tailWalk, h.headLine, tailStep, le_of_eq h.last, if_true, hcheck, tailStep.finish]
  | cons e epre ih =>
    cases pre with
    | nil => cases h.before
    | cons l pre =>
      obtain ⟨hd, hle, oc', hcheck, h', hseg⟩ := h.step sha256
      simp only [cons_append, tailWalk, hd, tailStep, hle, hcheck]
      rw [← hseg]
      exact ih h' false

end AiiOs.Ledger
