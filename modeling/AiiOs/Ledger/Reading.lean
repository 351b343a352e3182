import AiiOs.Ledger.Stream

/-! What a walk that ends without an error says about the files it read. -/

namespace AiiOs.Ledger
open Lib List Option

def Read (mark : Event → Event) (l : Line) (r : Reading) : Prop :=
  ∃ e, decodeEvent l.text = .ok e ∧ r = ⟨mark e, l.text, l.number⟩

variable {rs : List Reading} {seg : Segment} {ls : List Line} {sha256 : Bytes → Bytes}
  {err : Option RecordError} {newest : Option Segment} {evs : List Event}

variable {w : Walk} {r : Reading} {last : Option Event} {segs : List Segment} {st : TailState}
  {first : Bool} {t : Bytes} {d : Dir} {tail : Option Bytes}

theorem Walk.andThen_eq_ok {w' : Walk} : w.andThen w' = ⟨rs, none⟩ ↔
      ∃ a b, w = ⟨a, none⟩ ∧ w' = ⟨b, none⟩ ∧ rs = a ++ b := by
  obtain ⟨a, ea⟩ := w
  obtain ⟨b, eb⟩ := w'
  cases ea with
  | none => simp [Walk.andThen, eq_comm, and_comm]
  | some e => simp [Walk.andThen]

theorem Walk.cons_eq_ok : Walk.cons r w = ⟨rs, none⟩ ↔ ∃ a, w = ⟨a, none⟩ ∧ rs = r :: a := by
  obtain ⟨a, ea⟩ := w
  simp [Walk.cons, eq_comm, and_comm]

/-! ### Segments -/

theorem segmentClose_eq_none : segmentClose seg last = none ↔
      ∃ z, last = some z ∧ z.seq = seg.last ∧ z.type = eventSystemWitnessed ∧ z.sig ≠ [] := by
  cases last with
  | none => simp [segmentClose]
  | some z =>
    rw [segmentClose]
    split_ifs with h1 h2
    · simp [h1]
    · simp only [Option.some.injEq, exists_eq_left', false_iff, not_and, not_not]
      intro _ ht
      exact h2.resolve_left (not_not_intro ht)
    · rw [not_or, not_not] at h2
      simpa using ⟨not_not.mp h1, h2⟩

theorem segmentWalk_eq_ok : segmentWalk seg last ls = ⟨rs, none⟩ ↔
      seg.readErr = none ∧ Forall₂ (Read seg.mark) ls rs ∧
        (last = none → ∀ r ∈ rs.head?, r.event.seq = seg.first) ∧
        segmentClose seg (((rs.map Reading.event).getLast?).or last) = none := by
  -- `last` is the event read before: the first of a segment has to stand at its start
  induction ls generalizing last rs with
  | nil =>
    rw [segmentWalk, Walk.mk.injEq, or_eq_none_iff, forall₂_nil_left_iff]
    constructor
    · rintro ⟨rfl, hr, hc⟩
      exact ⟨hr, rfl, by simp, hc⟩
    · rintro ⟨hr, rfl, -, hc⟩
      exact ⟨rfl, hr, hc⟩
  | cons l ls ih =>
    rw [segmentWalk]
    cases hd : decodeEvent l.text with
    | error e => simp [Walk.fail, forall₂_cons_left_iff, Read, hd]
    | ok e =>
      have hread : ∀ r, Read seg.mark l r ↔ r = ⟨seg.mark e, l.text, l.number⟩ := by simp [Read, hd]
      have hlast : ∀ a : List Reading, ((seg.mark e :: a.map Reading.event).getLast?).or last =
          ((a.map Reading.event).getLast?).or (some (seg.mark e)) := by
        intro a
        rw [getLast?_cons]
        cases (a.map Reading.event).getLast? <;> rfl
      dsimp only
      by_cases hfirst : last = none ∧ e.seq ≠ seg.first
      · rw [if_pos hfirst]
        simp only [Walk.fail, Walk.mk.injEq, reduceCtorEq, and_false, false_iff]
        rintro ⟨-, hls, hseq, -⟩
        obtain ⟨r, a, hr, -, rfl⟩ := forall₂_cons_left_iff.mp hls
        rw [hread] at hr
        subst hr
        exact hfirst.2 (hseq hfirst.1 _ rfl)
      · rw [if_neg hfirst, Walk.cons_eq_ok]
        simp only [forall₂_cons_left_iff, hread]
        constructor
        · rintro ⟨a, ha, rfl⟩
          obtain ⟨hr, hls, -, hc⟩ := ih.mp ha
          refine ⟨hr, ⟨_, a, rfl, hls, rfl⟩, ?_, ?_⟩
          · intro hnone r hr
            cases hr
            exact not_not.mp fun hne => hfirst ⟨hnone, hne⟩
          · rw [map_cons, hlast]
            exact hc
        · rintro ⟨hr, ⟨_, a, rfl, hls, rfl⟩, -, hc⟩
          rw [map_cons, hlast] at hc
          exact ⟨a, ih.mpr ⟨hr, hls, by simp, hc⟩, rfl⟩

def ClosingHead (seg : Segment) (z : Event) : Prop :=
  z.seq = seg.last ∧ z.type = eventSystemWitnessed ∧ z.sig ≠ []

theorem streamSegment_eq_ok : streamSegment seg = ⟨rs, none⟩ ↔
      seg.readErr = none ∧ Forall₂ (Read seg.mark) seg.lines rs ∧
        (∀ r ∈ rs.head?, r.event.seq = seg.first) ∧
        ∃ z, (rs.map Reading.event).getLast? = some z ∧ ClosingHead seg z := by
  rw [streamSegment, segmentWalk_eq_ok, segmentClose_eq_none]
  simp [ClosingHead]

theorem streamSegments_eq_ok : streamSegments segs = ⟨rs, none⟩ ↔
      ∃ parts, Forall₂ (fun seg part => streamSegment seg = ⟨part, none⟩) segs parts ∧
      rs = parts.flatten := by
  induction segs generalizing rs with
  | nil => simp [streamSegments]
  | cons seg segs ih =>
    rw [streamSegments, Walk.andThen_eq_ok]
    constructor
    · rintro ⟨a, b, ha, hb, rfl⟩
      obtain ⟨parts, hparts, rfl⟩ := ih.mp hb
      exact ⟨a :: parts, .cons ha hparts, rfl⟩
    · rintro ⟨parts, hparts, rfl⟩
      obtain ⟨a, parts, ha, htail, rfl⟩ := forall₂_cons_left_iff.mp hparts
      exact ⟨a, _, ha, ih.mpr ⟨parts, htail, rfl⟩, rfl⟩

theorem streamSegments_append_ok {segs' : List Segment} :
    streamSegments (segs ++ segs') = ⟨rs, none⟩ ↔
      ∃ a b, streamSegments segs = ⟨a, none⟩ ∧ streamSegments segs' = ⟨b, none⟩ ∧ rs = a ++ b := by
  induction segs generalizing rs with
  | nil => simp [streamSegments]
  | cons seg segs ih =>
    rw [cons_append, streamSegments, streamSegments]
    simp only [Walk.andThen_eq_ok, ih]
    constructor
    · rintro ⟨a, _, ha, ⟨b, c, hb, hc, rfl⟩, rfl⟩
      exact ⟨a ++ b, c, ⟨a, b, ha, hb, rfl⟩, hc, by simp⟩
    · rintro ⟨_, c, ⟨a, b, ha, hb, rfl⟩, hc, rfl⟩
      exact ⟨a, b ++ c, ha, ⟨b, c, hb, hc, rfl⟩, by simp⟩

/-! ### The tail -/

theorem tailWalk_read (h : r ∈ (tailWalk sha256 newest err st first ls).readings) :
    ∃ l ∈ ls, Read markTail l r := by
  induction ls generalizing st first with
  | nil => simp [tailWalk] at h
  | cons l ls ih =>
    have later : ∀ {st first}, r ∈ (tailWalk sha256 newest err st first ls).readings →
        ∃ m ∈ l :: ls, Read markTail m r := fun h =>
      (ih h).imp fun _ hm => ⟨mem_cons_of_mem _ hm.1, hm.2⟩
    rw [tailWalk] at h
    cases hd : decodeEvent l.text with
    | error e => simp [hd, Walk.fail] at h
    | ok e =>
      rw [hd] at h
      dsimp only at h
      split at h
      · simp [Walk.fail] at h
      · exact later h
      · rcases mem_cons.mp h with rfl | h
        · exact ⟨l, mem_cons_self .., e, hd, rfl⟩
        · exact later h

theorem tailWalk_eq_ok (hst : newest = none ∨ st = .beyond) :
    tailWalk sha256 newest err st first ls = ⟨rs, none⟩ ↔ err = none ∧ Forall₂ (Read markTail) ls rs := by
  have hstep : ∀ first e, tailStep sha256 newest st first e = .ok (true, st) := by
    intro first e
    rcases hst with rfl | rfl
    · cases st <;> rfl
    · cases newest <;> rfl
  induction ls generalizing first rs with
  | nil => simp [tailWalk, and_comm]
  | cons l ls ih =>
    rw [tailWalk]
    cases hd : decodeEvent l.text with
    | error e => simp [Walk.fail, forall₂_cons_left_iff, Read, hd]
    | ok e =>
      simp only [hstep, Walk.cons_eq_ok, ih, forall₂_cons_left_iff, Read, hd, Except.ok.injEq,
        exists_eq_left']
      constructor
      · rintro ⟨a, ⟨he, ha⟩, rfl⟩
        exact ⟨he, _, a, rfl, ha, rfl⟩
      · rintro ⟨he, _, a, rfl, ha, rfl⟩
        exact ⟨a, ⟨he, ha⟩, rfl⟩

theorem tailWalk_behind
    (hf : first → ∀ l ∈ ls.head?, ∀ e, decodeEvent l.text = .ok e → seg.last < e.seq) :
    tailWalk sha256 (some seg) err .start first ls = ⟨rs, none⟩ ↔
      err = none ∧ Forall₂ (Read markTail) ls rs ∧ ∀ r ∈ rs, seg.last < r.event.seq := by
  induction ls generalizing first rs with
  | nil =>
    rw [tailWalk, Walk.mk.injEq, forall₂_nil_left_iff]
    constructor
    · rintro ⟨rfl, he⟩
      exact ⟨he, rfl, by simp⟩
    · rintro ⟨he, rfl, -⟩
      exact ⟨rfl, he⟩
  | cons l ls ih =>
    rw [tailWalk]
    cases hd : decodeEvent l.text with
    | error e => simp [Walk.fail, forall₂_cons_left_iff, Read, hd]
    | ok e =>
      have hread : ∀ r, Read markTail l r ↔ r = ⟨markTail e, l.text, l.number⟩ := by simp [Read, hd]
      simp only [forall₂_cons_left_iff, hread, tailStep]
      by_cases hseq : e.seq ≤ seg.last
      · have hrep : !first ∨ e.seq < seg.first := by
          cases first with
          | false => exact .inl rfl
          | true => exact absurd (hf rfl l rfl e hd) (not_lt.mpr hseq)
        rw [if_pos hseq, if_pos hrep]
        simp only [Walk.fail, Walk.mk.injEq, reduceCtorEq, and_false, false_iff]
        rintro ⟨-, ⟨_, a, rfl, -, rfl⟩, hr⟩
        exact absurd (hr _ (mem_cons_self ..)) (not_lt.mpr hseq)
      · have hbehind := fun rs => @ih rs false nofun
        rw [if_neg hseq]
        simp only [Walk.cons_eq_ok, hbehind]
        constructor
        · rintro ⟨a, ⟨he, ha, hr⟩, rfl⟩
          exact ⟨he, ⟨_, a, rfl, ha, rfl⟩, forall_mem_cons.mpr ⟨not_le.mp hseq, hr⟩⟩
        · rintro ⟨he, ⟨_, a, rfl, ha, rfl⟩, hr⟩
          exact ⟨a, ⟨he, ha, (forall_mem_cons.mp hr).2⟩, rfl⟩

/-! ### What a file holds -/

def Decodes (xs : List Bytes) (es : List Event) : Prop :=
  List.Forall₂ (fun x e => decodeEvent x = .ok e) xs es

structure Holds (s : Bytes) (es : List Event) : Prop where
  fits : (scan maxEventLineBytes s).2 = false
  decodes : Decodes ((scan maxEventLineBytes s).1.map Line.text) es

theorem exists_readings {mark : Event → Event} :
    (∃ rs, Forall₂ (Read mark) ls rs ∧ rs.map Reading.event = evs) ↔
      ∃ es, Decodes (ls.map Line.text) es ∧ evs = es.map mark := by
  unfold Decodes
  simp only [forall₂_map_left_iff]
  constructor
  · rintro ⟨rs, hrs, rfl⟩
    induction hrs with
    | nil => exact ⟨[], .nil, rfl⟩
    | cons hr _ ih =>
      obtain ⟨e, hd, rfl⟩ := hr
      obtain ⟨es, hes, heq⟩ := ih
      exact ⟨e :: es, .cons hd hes, congrArg (mark e :: ·) heq⟩
  · rintro ⟨es, hes, rfl⟩
    induction hes with
    | nil => exact ⟨[], .nil, rfl⟩
    | cons hd _ ih =>
      obtain ⟨rs, hrs, heq⟩ := ih
      exact ⟨_ :: rs, .cons ⟨_, hd, rfl⟩ hrs, congrArg (mark _ :: ·) heq⟩

/-- The segment file holds these records, from its first to the head it closes under. -/
structure SegmentHolds (seg : Segment) (es : List Event) : Prop where
  holds : Holds seg.content es
  sound : seg.damaged = false
  first : ∀ e ∈ es.head?, e.seq = seg.first
  closed : ∃ z, es.getLast? = some z ∧ ClosingHead seg z

theorem readErr_eq_none :
    seg.readErr = none ↔ (scan maxEventLineBytes seg.content).2 = false ∧ seg.damaged = false := by
  unfold Segment.readErr
  cases (scan maxEventLineBytes seg.content).2 <;> cases seg.damaged <;> simp

theorem streamSegment_holds : (∃ rs, streamSegment seg = ⟨rs, none⟩ ∧ rs.map Reading.event = evs) ↔
      ∃ es, SegmentHolds seg es ∧ evs = es.map seg.mark := by
  simp only [streamSegment_eq_ok, readErr_eq_none]
  constructor
  · rintro ⟨rs, ⟨⟨hfit, hsound⟩, hread, hfirst, z, hz, hclose⟩, rfl⟩
    obtain ⟨es, hes, heq⟩ := exists_readings.mp ⟨rs, hread, rfl⟩
    refine ⟨es, ⟨⟨hfit, hes⟩, hsound, ?_, ?_⟩, heq⟩
    · intro e he
      have hhead : (rs.map Reading.event).head? = some (seg.mark e) := by
        rw [heq, head?_map, he]
        rfl
      rw [head?_map, map_eq_some_iff] at hhead
      obtain ⟨r, hr, hre⟩ := hhead
      have := hfirst r hr
      rwa [hre] at this
    · rw [heq, getLast?_map, map_eq_some_iff] at hz
      obtain ⟨e, he, rfl⟩ := hz
      exact ⟨e, he, hclose⟩
  · rintro ⟨es, ⟨⟨hfit, hes⟩, hsound, hfirst, z, hz, hclose⟩, rfl⟩
    obtain ⟨rs, hread, heq⟩ := exists_readings.mpr ⟨es, hes, rfl⟩
    refine ⟨rs, ⟨⟨hfit, hsound⟩, hread, ?_, seg.mark z, ?_, hclose⟩, heq⟩
    · intro r hr
      have hhead : (es.map seg.mark).head? = some r.event := by
        rw [← heq, head?_map, hr]
        rfl
      rw [head?_map, map_eq_some_iff] at hhead
      obtain ⟨e, he, hre⟩ := hhead
      rw [← hre]
      exact hfirst e he
    · rw [heq, getLast?_map, hz]
      rfl

theorem tailReadErr_eq_none : tailReadErr t = none ↔ (scan maxEventLineBytes t).2 = false := by
  unfold tailReadErr
  cases (scan maxEventLineBytes t).2 <;> simp

def Behind (newest : Option Segment) (es : List Event) : Prop :=
  ∀ seg, newest = some seg → ∀ e ∈ es, seg.last < e.seq

theorem streamTail_holds
    (hf : ∀ seg, newest = some seg → ∀ l ∈ (scan maxEventLineBytes t).1.head?, ∀ e,
      decodeEvent l.text = .ok e → seg.last < e.seq) :
    (∃ rs, streamTail sha256 t newest = ⟨rs, none⟩ ∧ rs.map Reading.event = evs) ↔
      ∃ es, Holds t es ∧ Behind newest es ∧ evs = es.map markTail := by
  unfold streamTail Behind
  cases newest with
  | none =>
    simp only [tailWalk_eq_ok (.inl rfl), tailReadErr_eq_none]
    constructor
    · rintro ⟨rs, ⟨hfit, hread⟩, rfl⟩
      obtain ⟨es, hes, heq⟩ := exists_readings.mp ⟨rs, hread, rfl⟩
      exact ⟨es, ⟨hfit, hes⟩, nofun, heq⟩
    · rintro ⟨es, ⟨hfit, hes⟩, -, rfl⟩
      obtain ⟨rs, hread, heq⟩ := exists_readings.mpr ⟨es, hes, rfl⟩
      exact ⟨rs, ⟨hfit, hread⟩, heq⟩
  | some seg =>
    simp only [tailWalk_behind fun _ => hf seg rfl, tailReadErr_eq_none, Option.some.injEq, forall_eq']
    constructor
    · rintro ⟨rs, ⟨hfit, hread, hseq⟩, rfl⟩
      obtain ⟨es, hes, heq⟩ := exists_readings.mp ⟨rs, hread, rfl⟩
      refine ⟨es, ⟨hfit, hes⟩, ?_, heq⟩
      intro e he
      have hmem : markTail e ∈ rs.map Reading.event := heq ▸ List.mem_map_of_mem he
      obtain ⟨r, hr, hre⟩ := List.mem_map.mp hmem
      have := hseq r hr
      rwa [hre] at this
    · rintro ⟨es, ⟨hfit, hes⟩, hseq, rfl⟩
      obtain ⟨rs, hread, heq⟩ := exists_readings.mpr ⟨es, hes, rfl⟩
      refine ⟨rs, ⟨hfit, hread, ?_⟩, heq⟩
      intro r hr
      have hmem : r.event ∈ es.map markTail := heq ▸ List.mem_map_of_mem hr
      obtain ⟨e, he, hre⟩ := List.mem_map.mp hmem
      rw [← hre]
      exact hseq e he

theorem streamTail_behind {es : List Event} (h : Holds t es) (hb : Behind newest es) :
    ∃ rs, streamTail sha256 t newest = ⟨rs, none⟩ ∧ rs.map Reading.event = es.map markTail := by
  refine (streamTail_holds ?_).mpr ⟨es, h, hb, rfl⟩
  intro seg hseg x hx e he
  have hdec := h.decodes
  cases hs : (scan maxEventLineBytes t).1 with
  | nil => simp [hs] at hx
  | cons y ys =>
    rw [hs] at hx hdec
    cases hx
    obtain ⟨e', es', hd, -, rfl⟩ := forall₂_cons_left_iff.mp hdec
    cases he.symm.trans hd
    exact hb seg hseg _ (mem_cons_self ..)

/-! ### The whole record -/

theorem streamLines_eq_ok : streamLines sha256 d tail = ⟨rs, none⟩ ↔
      ∃ segs t a b, listSegments d = .ok segs ∧ tail.or d.tail = some t ∧
        streamSegments segs = ⟨a, none⟩ ∧ streamTail sha256 t segs.getLast? = ⟨b, none⟩ ∧
        rs = a ++ b := by
  unfold streamLines
  cases listSegments d with
  | error e => simp [Walk.fail]
  | ok segs =>
    rw [Walk.andThen_eq_ok]
    cases tail.or d.tail with
    | none => simp [Walk.fail]
    | some t => simp

theorem stream_eq_ok : stream sha256 d tail = (evs, none) ↔
      ∃ rs, streamLines sha256 d tail = ⟨rs, none⟩ ∧ evs = rs.map Reading.event := by
  unfold stream
  generalize streamLines sha256 d tail = w
  obtain ⟨rs, err⟩ := w
  simp only [Prod.mk.injEq, Walk.mk.injEq]
  constructor
  · rintro ⟨rfl, rfl⟩
    exact ⟨rs, ⟨rfl, rfl⟩, rfl⟩
  · rintro ⟨_, ⟨rfl, rfl⟩, rfl⟩
    exact ⟨rfl, rfl⟩

end AiiOs.Ledger
