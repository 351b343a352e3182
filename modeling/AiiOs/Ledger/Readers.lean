import AiiOs.Ledger.Sealing

/-! A reader that walks the record while its owner seals it: `streamLines` lists the
segments at one moment and opens the tail at a later one. A file it has opened is
not changed by a rename. -/

namespace AiiOs.Ledger
open Lib List Option

/-- The owner between seals, or with the segment in place and the tail still whole. -/
inductive Owner
  | idle (l : LedgerState)
  | published (l : LedgerState) (plan : SealPlan)

inductive Reader
  | idle
  | reading (listed todo : List Segment) (got : List Event)
  | done (evs : List Event)
  | failed

structure System where
  dir : Dir
  owner : Owner
  reader : Reader

inductive Action
  | sealSegment (head : Nat)
  | sealTail
  | list
  | readSegment
  | openTail

def Dir.file (d : Dir) (seg : Segment) : Option Segment :=
  d.segments.find? fun s => s.name = seg.name

def openSegment (d : Dir) (listed todo : List Segment) (got : List Event) (seg : Segment) : Reader :=
  match d.file seg with
  | none => .failed
  | some f =>
    match streamSegment f with
    | ⟨rs, none⟩ => .reading listed todo (got ++ rs.map Reading.event)
    | _ => .failed

def openTail (sha256 : Bytes → Bytes) (d : Dir) (listed : List Segment) (got : List Event) : Reader :=
  match d.tail with
  | none => .failed
  | some t =>
    match streamTail sha256 t (listed.getLast?.map fun seg => (d.file seg).getD seg) with
    | ⟨rs, none⟩ => .done (got ++ rs.map Reading.event)
    | _ => .failed

def System.step (sha256 : Bytes → Bytes) (s : System) : Action → Option System
  | .sealSegment head =>
    match s.owner with
    | .published .. => none
    | .idle l =>
      match planSeal sha256 l s.dir head with
      | .error _ => none
      | .ok plan =>
        some { s with
          dir := (plan.steps.take 2).foldl FsOp.apply s.dir, owner := .published l plan }
  | .sealTail =>
    match s.owner with
    | .idle _ => none
    | .published l plan =>
      some { s with
        dir := (plan.steps.drop 2).foldl FsOp.apply s.dir, owner := .idle (sealed l plan) }
  | .list =>
    match s.reader, listSegments s.dir with
    | .idle, .ok segs => some { s with reader := .reading segs segs [] }
    | .idle, .error _ => some { s with reader := .failed }
    | _, _ => none
  | .readSegment =>
    match s.reader with
    | .reading listed (seg :: todo) got => some { s with reader := openSegment s.dir listed todo got seg }
    | _ => none
  | .openTail =>
    match s.reader with
    | .reading listed [] got => some { s with reader := openTail sha256 s.dir listed got }
    | _ => none

/-- Whether a segment has gone into place since the listing, and whether a whole seal has. -/
structure Seen where
  segment : Bool
  whole : Bool

def Seen.next (p : Seen) : Action → Seen
  | .sealSegment _ => { p with segment := true }
  | .sealTail => ⟨false, p.whole || p.segment⟩
  | _ => p

def sealedWithin (actions : List Action) : Bool := (actions.foldl Seen.next ⟨false, false⟩).whole

/-! ### The owner -/

/-- The record in order, with the entries `R`. -/
structure Whole (sha256 : Bytes → Bytes) (R : List Event) (d : Dir) (l : LedgerState)
    (sealedEvs es : List Event) : Prop where
  inOrder : InOrder sha256 d l sealedEvs es
  entries : (sealedEvs ++ es.map markTail).map bare = R
  chained : Chained sha256 0 [] (sealedEvs ++ es.map markTail)

theorem chained_bare {sha256 : Bytes → Bytes} {n : Nat} {prev : Bytes} {es : List Event} :
    Chained sha256 n prev (es.map bare) ↔ Chained sha256 n prev es := by
  induction es generalizing n prev with
  | nil => rfl
  | cons e es ih =>
    rw [map_cons, Chained, ih]
    rfl

inductive OwnerOk (sha256 : Bytes → Bytes) (R : List Event) : Dir → Owner → Prop
  | idle {d : Dir} {l : LedgerState} {sealedEvs es : List Event} (h : Whole sha256 R d l sealedEvs es) :
    OwnerOk sha256 R d (.idle l)
  | published {d : Dir} {l : LedgerState} {sealedEvs es : List Event} {plan : SealPlan} {t : Bytes}
    {epre : List Event} {eh : Event} {epost : List Event} (h : Whole sha256 R d l sealedEvs es)
    (hs : SealedAt sha256 d l sealedEvs es plan t epre eh epost) :
    OwnerOk sha256 R ⟨d.segments ++ [plan.seg], some t, []⟩ (.published l plan)

section
variable {sha256 : Bytes → Bytes} {R : List Event} {d : Dir} {l : LedgerState} {sealedEvs es : List Event}
  {plan : SealPlan} {t : Bytes} {epre : List Event} {eh : Event} {epost : List Event}
  {listed : List Segment} {p : Seen}

theorem Whole.sealed (h : Whole sha256 R d l sealedEvs es)
    (hs : SealedAt sha256 d l sealedEvs es plan t epre eh epost) :
    Whole sha256 R (plan.result d) (sealed l plan)
      (sealedEvs ++ (epre.map unsigned ++ [eh]).map plan.seg.mark) epost := by
  have hentries : ((sealedEvs ++ (epre.map unsigned ++ [eh]).map plan.seg.mark) ++
      epost.map markTail).map bare = R := by
    rw [← h.entries, hs.records]
    simp only [map_append, map_cons, List.map_map, append_assoc]
    rfl
  refine ⟨hs.result, hentries, ?_⟩
  rw [← chained_bare, hentries, ← h.entries, chained_bare]
  exact h.chained

theorem OwnerOk.sealSegment {head : Nat} (h : OwnerOk sha256 R d (.idle l))
    (hp : planSeal sha256 l d head = .ok plan) :
    OwnerOk sha256 R ((plan.steps.take 2).foldl FsOp.apply d) (.published l plan) ∧
      ((plan.steps.take 2).foldl FsOp.apply d).segments = d.segments ++ [plan.seg] := by
  cases h with
  | idle h =>
    obtain ⟨prev, hes⟩ := h.inOrder.chained h.chained
    obtain ⟨t, epre, eh, epost, hs⟩ := h.inOrder.sealedAt hes hp
    have hfilter := (listSegments_publish h.inOrder.listed hs.next).1
    have hdir : (plan.steps.take 2).foldl FsOp.apply d = ⟨d.segments ++ [plan.seg], some t, []⟩ := by
      simp only [SealPlan.steps, List.take, List.foldl, FsOp.apply, hfilter, hs.tail,
        h.inOrder.temps, erase_cons_head]
    rw [hdir]
    exact ⟨.published h hs, rfl⟩

theorem OwnerOk.sealTail (h : OwnerOk sha256 R d (.published l plan)) :
    OwnerOk sha256 R ((plan.steps.drop 2).foldl FsOp.apply d) (.idle (sealed l plan)) ∧
      ((plan.steps.drop 2).foldl FsOp.apply d).segments = d.segments := by
  cases h with
  | published h hs =>
    have hdir : ∀ d, d.temps = [] → (plan.steps.drop 2).foldl FsOp.apply d =
        ⟨d.segments, some plan.tail, []⟩ := by
      intro d hd
      simp only [SealPlan.steps, List.drop, List.foldl, FsOp.apply, hd, erase_cons_head]
    rw [hdir _ rfl]
    exact ⟨.idle (h.sealed hs), rfl⟩

/-! ### The reader -/

/-- Where the listed segments stand against the owner's: the same, one ahead, or, once a
whole seal has passed, behind. -/
def Listed (p : Seen) (listed : List Segment) : Owner → Prop
  | .idle l => p.segment = false ∧
    if p.whole then ∃ more, more ≠ [] ∧ l.segments = listed ++ more else listed = l.segments
  | .published l plan =>
    if p.whole then ∃ more, more ≠ [] ∧ l.segments = listed ++ more
    else if p.segment then listed = l.segments
    else listed = l.segments ++ [plan.seg]

/-- A reader under way: it has delivered the segments before `todo`, and the files it
listed are still there. -/
structure ReaderOk (p : Seen) (s : System) (listed todo : List Segment) (got : List Event) : Prop where
  files : ∀ seg ∈ listed, s.dir.file seg = some seg
  read : ∃ before rs, listed = before ++ todo ∧ streamSegments before = ⟨rs, none⟩ ∧
    rs.map Reading.event = got
  listed : Listed p listed s.owner

theorem Listed.sealSegment (h : Listed p listed (.idle l))
    (head : Nat) : Listed (p.next (.sealSegment head)) listed (.published l plan) := by
  obtain ⟨-, h⟩ := h
  simp only [Listed, Seen.next]
  split_ifs at h ⊢ <;> exact h

theorem Listed.sealTail (h : Listed p listed (.published l plan)) :
    Listed (p.next .sealTail) listed (.idle (Ledger.sealed l plan)) := by
  obtain ⟨segment, whole⟩ := p
  refine ⟨rfl, ?_⟩
  cases whole with
  | true =>
    obtain ⟨more, hne, hl⟩ := h
    exact ⟨more ++ [plan.seg], by simp, by simp [Ledger.sealed, hl]⟩
  | false =>
    cases segment with
    | true => exact ⟨[plan.seg], by simp, congrArg (· ++ [plan.seg]) (.symm h)⟩
    | false => exact h

variable {more listed todo : List Segment} {seg : Segment} {s : System} {a : Action} {p : Seen}
  {evs : List Event}

theorem file_of_listed {segs : List Segment} (h : listSegments d = .ok segs) :
    ∀ seg ∈ segs, d.file seg = some seg := by
  obtain ⟨rfl, hrun⟩ := listSegments_eq_ok.mp h
  have hinj : ∀ {n : Nat} {segs : List Segment}, checkRun n segs = .ok () →
      ∀ a ∈ segs, ∀ b ∈ segs, a.name = b.name → a = b := by
    intro n segs
    induction segs using List.reverseRecOn with
    | nil => simp
    | append_singleton segs seg ih =>
      intro hrun a ha b hb hab
      obtain ⟨hrun, hfirst⟩ := checkRun_concat.mp hrun
      have hlt := checkRun_last_lt hrun
      have hne : ∀ c ∈ segs, c.name ≠ seg.name := by
        intro c hc heq
        have := (Container.segment.inj heq).1
        have := hlt c hc
        have := c.first_le
        omega
      rcases mem_append.mp ha with ha | ha <;> rcases mem_append.mp hb with hb | hb
      · exact ih hrun a ha b hb hab
      · rw [mem_singleton.mp hb] at hab
        exact absurd hab (hne a ha)
      · rw [mem_singleton.mp ha] at hab
        exact absurd hab.symm (hne b hb)
      · rw [mem_singleton.mp ha, mem_singleton.mp hb]
  intro seg hseg
  have hmem : seg ∈ d.segments := (mem_insertionSort _).mp hseg
  unfold Dir.file
  cases hf : d.segments.find? fun s => s.name = seg.name with
  | none => exact absurd (List.find?_eq_none.mp hf seg hmem) (by simp)
  | some f =>
    have hname : f.name = seg.name := by simpa using find?_some hf
    have hfmem : f ∈ segmentFiles d := (mem_insertionSort _).mpr (mem_of_find?_eq_some hf)
    rw [hinj hrun f hfmem seg hseg hname]

/-! ### Steps and runs -/

variable {s' : System}

theorem step_owner (ho : OwnerOk sha256 R s.dir s.owner)
    (h : s.step sha256 a = some s') : OwnerOk sha256 R s'.dir s'.owner := by
  obtain ⟨dir, owner, reader⟩ := s
  cases a with
  | sealSegment head =>
    cases owner with
    | published => cases h
    | idle l =>
      cases hp : planSeal sha256 l dir head with
      | error e => simp [System.step, hp] at h
      | ok plan =>
        simp only [System.step, hp] at h
        cases h
        exact (ho.sealSegment hp).1
  | sealTail =>
    cases owner with
    | idle => cases h
    | published l plan =>
      cases h
      exact ho.sealTail.1
  | list =>
    simp only [System.step] at h
    split at h <;> cases h <;> exact ho
  | readSegment =>
    simp only [System.step] at h
    split at h <;> cases h
    exact ho
  | openTail =>
    simp only [System.step] at h
    split at h <;> cases h
    exact ho

def Reader.Ended : Reader → Prop
  | .done _ | .failed => True
  | _ => False

theorem step_ended (hr : s.reader.Ended) (h : s.step sha256 a = some s') : s'.reader.Ended := by
  obtain ⟨dir, owner, reader⟩ := s
  cases a with
  | sealSegment head =>
    simp only [System.step] at h
    split at h
    · cases h
    · split at h <;> cases h
      exact hr
  | sealTail =>
    simp only [System.step] at h
    split at h <;> cases h
    exact hr
  | list => cases reader <;> simp [System.step, Reader.Ended] at h hr
  | readSegment => cases reader <;> simp [System.step, Reader.Ended] at h hr
  | openTail => cases reader <;> simp [System.step, Reader.Ended] at h hr

variable {actions : List Action}

theorem run_ended (hr : s.reader.Ended) (h : actions.foldlM (System.step sha256) s = some s') :
    s'.reader.Ended :=
  Json.foldlM_invariant (P := (·.reader.Ended)) h hr fun _ _ _ _ hs hstep => step_ended hs hstep

theorem run_owner (ho : OwnerOk sha256 R s.dir s.owner)
    (h : actions.foldlM (System.step sha256) s = some s') : OwnerOk sha256 R s'.dir s'.owner :=
  Json.foldlM_invariant (P := fun s => OwnerOk sha256 R s.dir s.owner) h ho fun _ _ _ _ hs hstep =>
    step_owner hs hstep

theorem openSegment_cases (d : Dir) (listed todo : List Segment) (got : List Event)
    (hf : d.file seg = some seg) : openSegment d listed todo got seg = .failed ∨
      ∃ rs, streamSegment seg = ⟨rs, none⟩ ∧
        openSegment d listed todo got seg = .reading listed todo (got ++ rs.map Reading.event) := by
  unfold openSegment
  rw [hf]
  dsimp only
  split
  · rename_i rs hrs
    exact .inr ⟨rs, hrs, rfl⟩
  · exact .inl rfl

section
variable (ho : OwnerOk sha256 R s.dir s.owner)
include ho

section
variable {got : List Event} (hr : s.reader = .reading listed todo got) (hk : ReaderOk p s listed todo got)
include hr hk

theorem step_reading (h : s.step sha256 a = some s') :
    s'.reader.Ended ∨ ∃ todo' got', s'.reader = .reading listed todo' got' ∧
      ReaderOk (p.next a) s' listed todo' got' := by
  obtain ⟨dir, owner, reader⟩ := s
  cases hr
  obtain ⟨hfiles, hread, hlisted⟩ := hk
  -- files are only added or left alone, so that a segment listed can still be read
  cases a with
  | sealSegment head =>
    cases owner with
    | published => cases h
    | idle l =>
      cases hp : planSeal sha256 l dir head with
      | error e => simp [System.step, hp] at h
      | ok plan =>
        simp only [System.step, hp] at h
        cases h
        refine .inr ⟨todo, got, rfl, ?_, hread, hlisted.sealSegment head⟩
        intro seg hseg
        have hgrow := (ho.sealSegment hp).2
        generalize (plan.steps.take 2).foldl FsOp.apply dir = dir' at hgrow ⊢
        obtain ⟨segments, tail, temps⟩ := dir'
        cases hgrow
        exact find?_append.trans (congrArg (Option.or · _) (hfiles seg hseg))
  | sealTail =>
    cases owner with
    | idle => cases h
    | published l plan =>
      cases h
      refine .inr ⟨todo, got, rfl, ?_, hread, hlisted.sealTail⟩
      intro seg hseg
      have hsame := ho.sealTail.2
      have := hfiles seg hseg
      unfold Dir.file at this ⊢
      rwa [hsame]
  | list => simp [System.step] at h
  | readSegment =>
    cases todo with
    | nil => cases h
    | cons seg todo =>
      obtain ⟨before, rs, hsplit, hrs, hgot⟩ := hread
      have hmem : seg ∈ listed := hsplit ▸ mem_append_right _ (mem_cons_self ..)
      cases h
      rcases openSegment_cases dir listed todo got (hfiles seg hmem) with hfail | ⟨rs', hrs', hok⟩
      · exact .inl (by simp only [hfail]; trivial)
      · refine .inr ⟨todo, got ++ rs'.map Reading.event, hok, hfiles, ?_, hlisted⟩
        refine ⟨before ++ [seg], rs ++ rs', by rw [hsplit]; simp, ?_, by simp [hgot]⟩
        refine streamSegments_append_ok.mpr ⟨rs, rs', hrs, ?_, rfl⟩
        simp [streamSegments, hrs', Walk.andThen]
  | openTail =>
    cases todo with
    | cons => cases h
    | nil =>
      cases h
      refine .inl ?_
      dsimp only [openTail]
      split
      · trivial
      · split <;> trivial

theorem run_reading (h : actions.foldlM (System.step sha256) s = some s') (hnot : ¬s'.reader.Ended) :
    ∃ todo' got', s'.reader = .reading listed todo' got' ∧
      ReaderOk (actions.foldl Seen.next p) s' listed todo' got' := by
  induction actions generalizing p s todo got with
  | nil =>
    cases h
    exact ⟨todo, got, hr, hk⟩
  | cons a actions ih =>
    rw [foldlM_cons, bind_eq_bind, bind_eq_some_iff] at h
    obtain ⟨m, hm, h⟩ := h
    rcases step_reading ho hr hk hm with hend | ⟨todo', got', hr', hk'⟩
    · exact absurd (run_ended hend h) hnot
    · exact ih (step_owner ho hm) hr' hk' h

end

theorem step_list (h : s.step sha256 .list = some s') : s'.reader.Ended ∨
      ∃ listed, s'.reader = .reading listed listed [] ∧ ReaderOk ⟨false, false⟩ s' listed listed [] := by
  obtain ⟨dir, owner, reader⟩ := s
  simp only [System.step] at h
  split at h
  · rename_i segs hsegs
    cases h
    refine .inr ⟨segs, rfl, file_of_listed hsegs, ⟨[], [], rfl, rfl, rfl⟩, ?_⟩
    cases ho with
    | idle hw =>
      cases hw.inOrder.listed.symm.trans hsegs
      exact ⟨rfl, rfl⟩
    | published hw hs =>
      have hpub := (listSegments_publish hw.inOrder.listed hs.next).2
      cases (hpub _ _).symm.trans hsegs
      exact rfl
  · cases h
    exact .inl trivial
  · cases h

end

/-! ### What the reader delivers -/

theorem openTail_done {got : List Event} {es : List Event} (ht : d.tail = some t)
    (hfiles : ∀ seg ∈ listed, d.file seg = some seg)
    (hstream : ∃ rs, streamTail sha256 t listed.getLast? = ⟨rs, none⟩ ∧ rs.map Reading.event =
      es.map markTail)
    (h : openTail sha256 d listed got = .done evs) : evs = got ++ es.map markTail := by
  have hnewest : (listed.getLast?.map fun seg => (d.file seg).getD seg) = listed.getLast? := by
    cases hl : listed.getLast? with
    | none => rfl
    | some seg => rw [map_some, hfiles seg (mem_of_getLast? hl), getD_some]
  obtain ⟨rs, hrs, hes⟩ := hstream
  simp only [openTail, ht, hnewest, hrs] at h
  cases h
  rw [hes]

theorem ReaderOk.got {s : System} {got : List Event} (h : ReaderOk p s listed [] got) :
    ∃ rs, streamSegments listed = ⟨rs, none⟩ ∧ rs.map Reading.event = got := by
  obtain ⟨before, rs, rfl, hrs, hgot⟩ := h.read
  rw [append_nil]
  exact ⟨rs, hrs, hgot⟩

theorem Whole.behind_of_mem (h : Whole sha256 R d l sealedEvs es)
    (hl : l.segments = listed ++ more) : Behind listed.getLast? es := by
  intro seg hseg e he
  have hmem : seg ∈ l.segments := hl ▸ mem_append_left _ (mem_of_getLast? hseg)
  obtain ⟨-, hrun⟩ := listSegments_eq_ok.mp h.inOrder.listed
  have hlast := checkRun_last_lt hrun seg hmem
  cases hnew : l.segments.getLast? with
  | none =>
    rw [getLast?_eq_none_iff.mp hnew] at hmem
    cases hmem
  | some newest =>
    have := h.inOrder.behind newest hnew e he
    simp only [runNext, hnew] at hlast
    omega

theorem gap_prefix_iff (h : Whole sha256 R d l sealedEvs es)
    (hne : more ≠ []) (hl : l.segments = listed ++ more) {got : List Event}
    (hgot : ∃ rs, streamSegments listed = ⟨rs, none⟩ ∧ rs.map Reading.event = got) :
    (got ++ es.map markTail).map bare <+: R ↔ es = [] := by
  obtain ⟨rs, hrs, hsealed⟩ := h.inOrder.segments
  rw [hl] at hrs
  obtain ⟨a, b, ha, hb, rfl⟩ := streamSegments_append_ok.mp hrs
  obtain ⟨rs', hrs', rfl⟩ := hgot
  cases ha.symm.trans hrs'
  have hbne : b.map Reading.event ≠ [] := by
    cases more with
    | nil => exact absurd rfl hne
    | cons seg more =>
      obtain ⟨c, c', hc, -, rfl⟩ := Walk.andThen_eq_ok.mp hb
      obtain ⟨-, -, -, z, hz, -⟩ := streamSegment_eq_ok.mp hc
      intro hnil
      rw [map_append, append_eq_nil_iff] at hnil
      rw [hnil.1] at hz
      cases hz
  rw [← h.entries, ← hsealed]
  simp only [map_append, append_assoc, prefix_append_right_inj]
  cases es with
  | nil => simp
  | cons e es =>
    simp only [reduceCtorEq, iff_false]
    intro hpre
    -- the first record of the tail would have to be the first one moved
    obtain ⟨f, fs, hf⟩ := exists_cons_of_ne_nil hbne
    have hpw := h.chained.pairwise
    rw [← hsealed, map_append, hf, append_assoc] at hpw
    have hlt : f.seq < (markTail e).seq :=
      rel_of_pairwise_cons (pairwise_append.mp hpw).2.1 (mem_append_right _ (mem_cons_self ..))
    rw [hf, map_cons, map_cons, map_cons, cons_append, cons_prefix_cons] at hpre
    have heq : (bare (markTail e)).seq = (bare f).seq := congrArg Event.seq hpre.1
    exact absurd heq (ne_of_gt hlt)

theorem reader_done_iff {got : List Event} (ho : OwnerOk sha256 R s.dir s.owner)
    (hk : ReaderOk p s listed [] got) (h : openTail sha256 s.dir listed got = .done evs) :
    evs.map bare <+: R ↔ p.whole = false ∨ ∃ t, s.dir.tail = some t ∧ firstRecord t = .ok none := by
  have hgot := hk.got
  have hfiles := hk.files
  obtain ⟨-, -, hlisted⟩ := hk
  obtain ⟨dir, owner, reader⟩ := s
  obtain ⟨segment, whole⟩ := p
  -- the tail is the one of a record in order, whether or not its segment has been published
  obtain ⟨d₀, l, sealedEvs, es, hw, htail, hcases⟩ : ∃ d₀ l sealedEvs es,
      Whole sha256 R d₀ l sealedEvs es ∧ dir.tail = d₀.tail ∧
        ((whole ∧ ∃ more, more ≠ [] ∧ l.segments = listed ++ more) ∨ whole = false ∧ evs.map bare = R) := by
    cases ho with
    | @idle _ l sealedEvs es hw =>
      refine ⟨dir, l, sealedEvs, es, hw, rfl, ?_⟩
      cases whole with
      | true => exact .inl ⟨rfl, hlisted.2⟩
      | false =>
        obtain rfl : listed = l.segments := hlisted.2
        obtain ⟨t, ht, hholds, -⟩ := hw.inOrder.tail
        have hevs := openTail_done ht hfiles (streamTail_behind hholds hw.inOrder.behind) h
        obtain ⟨rs, hrs, rfl⟩ := hgot
        obtain ⟨rs', hrs', rfl⟩ := hw.inOrder.segments
        cases hrs.symm.trans hrs'
        exact .inr ⟨rfl, by rw [hevs, hw.entries]⟩
    | @published d₀ l sealedEvs es plan t epre eh epost hw hs =>
      refine ⟨d₀, l, sealedEvs, es, hw, hs.tail.symm, ?_⟩
      cases whole with
      | true => exact .inl ⟨rfl, hlisted⟩
      | false =>
        refine .inr ⟨rfl, ?_⟩
        cases segment with
        | true =>
          obtain rfl : listed = l.segments := hlisted
          obtain ⟨t', ht', hholds, -⟩ := hw.inOrder.tail
          cases hs.tail.symm.trans ht'
          have hevs := openTail_done rfl hfiles (streamTail_behind hholds hw.inOrder.behind) h
          obtain ⟨rs, hrs, rfl⟩ := hgot
          obtain ⟨rs', hrs', rfl⟩ := hw.inOrder.segments
          cases hrs.symm.trans hrs'
          rw [hevs, hw.entries]
        | false =>
          obtain rfl : listed = l.segments ++ [plan.seg] := hlisted
          have hlast : (l.segments ++ [plan.seg]).getLast? = some plan.seg := by simp
          have hevs := openTail_done rfl hfiles (hlast ▸ hs.streamed) h
          obtain ⟨rs, hrs, rfl⟩ := hgot
          have hsealed := hw.sealed hs
          obtain ⟨rs', hrs', hre⟩ := hsealed.inOrder.segments
          cases hrs.symm.trans hrs'
          rw [hevs, hre, hsealed.entries]
  rcases hcases with ⟨rfl, more, hne, hl⟩ | ⟨rfl, hevs⟩
  · obtain ⟨t, ht, hholds, -⟩ := hw.inOrder.tail
    have hevs := openTail_done (htail.trans ht) hfiles (streamTail_behind hholds (hw.behind_of_mem hl)) h
    rw [hevs, gap_prefix_iff hw hne hl hgot]
    have hnone : es = [] ↔ firstRecord t = .ok none := by
      rw [firstRecord_holds hholds, Except.ok.injEq, head?_eq_none_iff]
    simp [htail, ht, hnone]
  · simp [hevs]

end

/-- What a reader delivers without an error is a run of the record from its first entry
on exactly when no seal had both its renames between the listing and the opening of the
tail, or the tail it opened was empty. -/
theorem reader_prefix_iff {sha256 : Bytes → Bytes} {d₀ d : Dir} {l : LedgerState} {record : List Event}
    (hopen : openLedger sha256 d₀ = .ok (l, d)) (hstream : stream sha256 d none = (record, none))
    (hchain : Chained sha256 0 [] record) {pre mid : List Action} {s : System} {evs : List Event}
    (hrun : (pre ++ Action.list :: (mid ++ [Action.openTail])).foldlM (System.step sha256)
      ⟨d, .idle l, .idle⟩ = some s)
    (hdone : s.reader = .done evs) :
    evs.map bare <+: record.map bare ↔
      sealedWithin mid = false ∨ ∃ t, s.dir.tail = some t ∧ firstRecord t = .ok none := by
  obtain ⟨sealedEvs, es, hin, rfl⟩ := inOrder_of_open hopen hstream
  have ho : OwnerOk sha256 ((sealedEvs ++ es.map markTail).map bare) d (.idle l) :=
    .idle ⟨hin, rfl, hchain⟩
  rw [foldlM_append, bind_eq_bind, bind_eq_some_iff] at hrun
  obtain ⟨s₁, h₁, hrun⟩ := hrun
  rw [foldlM_cons, bind_eq_bind, bind_eq_some_iff] at hrun
  obtain ⟨s₂, h₂, hrun⟩ := hrun
  rw [foldlM_append, bind_eq_bind, bind_eq_some_iff] at hrun
  obtain ⟨s₃, h₃, hrun⟩ := hrun
  have ho₁ := run_owner ho h₁
  have ho₂ := step_owner ho₁ h₂
  have ho₃ := run_owner ho₂ h₃
  have h₄ : s₃.step sha256 .openTail = some s := by simpa using hrun
  -- only a reader that is under way can open the tail
  obtain ⟨listed', got', hr₃, hs⟩ : ∃ listed got, s₃.reader = .reading listed [] got ∧
      s = { s₃ with reader := openTail sha256 s₃.dir listed got } := by
    obtain ⟨dir, owner, reader⟩ := s₃
    simp only [System.step] at h₄
    split at h₄ <;> cases h₄
    exact ⟨_, _, rfl, rfl⟩
  have hnot : ¬s₃.reader.Ended := by rw [hr₃]; exact not_false
  rcases step_list ho₁ h₂ with hend | ⟨listed, hr₂, hk₂⟩
  · exact absurd (run_ended hend h₃) hnot
  · obtain ⟨todo, got, hr, hk⟩ := run_reading ho₂ hr₂ hk₂ h₃ hnot
    cases hr.symm.trans hr₃
    subst hs
    have hiff := reader_done_iff ho₃ hk hdone
    exact hiff

/-! A record behind the head of `unsealedDir`, and a reader of it. -/

def laterRecord : Event := signRecord { openingRecord with
    seq := 3, prev := entryHash checksum.sha256 (headRecord (bytesOf "\x7b\x7d")) }

def threeDir : Dir :=
  { unsealedDir with tail := unsealedDir.tail.map fun t => t ++ lineOf laterRecord }

def delivered (d₀ : Dir) (actions : List Action) : Option (List Nat) :=
  match openLedger checksum.sha256 d₀ with
  | .error _ => none
  | .ok (l, d) =>
    match actions.foldlM (System.step checksum.sha256) ⟨d, .idle l, .idle⟩ with
    | some ⟨_, _, .done evs⟩ => some (evs.map Event.seq)
    | _ => none

/-- With the seal of two records between the listing and the opening of the tail, the
third record is delivered alone, without an error. -/
theorem reader_skips_sealed_records : delivered threeDir [.list, .openTail] = some [1, 2, 3] ∧
      delivered threeDir [.list, .sealSegment 2, .sealTail, .openTail] = some [3] := by
  decide +kernel

theorem reader_prefix_segment_only : ∃ l d record s evs,
    openLedger checksum.sha256 threeDir = .ok (l, d) ∧
      stream checksum.sha256 d none = (record, none) ∧
      [Action.list, .sealSegment 2, .openTail].foldlM (System.step checksum.sha256)
        ⟨d, .idle l, .idle⟩ = some s ∧
      s.reader = .done evs ∧ evs.map bare <+: record.map bare := by
  have hok : sealable threeDir 2 := by decide +kernel
  have hrun : delivered threeDir [.list, .sealSegment 2, .openTail] = some [1, 2, 3] := by
    decide +kernel
  unfold sealable at hok
  unfold delivered at hrun
  split at hok
  · cases hok
  rename_i l d hopen
  rw [hopen] at hrun
  dsimp only at hrun
  split at hok
  · rename_i record hstream
    rw [Bool.and_eq_true, decide_eq_true_eq] at hok
    split at hrun
    · rename_i dir owner evs hs
      have hiff := @reader_prefix_iff _ _ _ _ _ hopen hstream hok.1 [] [.sealSegment 2] _ _ hs rfl
      exact ⟨l, d, record, _, evs, hopen, hstream, hs, rfl, hiff.mpr (.inl rfl)⟩
    · cases hrun
  · cases hok

end AiiOs.Ledger
