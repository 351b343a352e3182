import AiiOs.Untrusted.Cut

/-! internal/conversation, loop.go: a tool result that is longer than its window keeps its
tail. A result that is one frame keeps the frame around the tail. -/

namespace AiiOs.Conversation
open Lib Untrusted List

def retention (transcriptChars : Int) : List Char :=
  if transcriptChars = -1 then charsOf "the whole result is retained in the operator transcript"
  else if 0 < transcriptChars then
    charsOf "the first " ++ decimalInt transcriptChars ++
      charsOf " characters are retained in the operator transcript"
  else charsOf "no transcript excerpt is available"

def truncationNote (omitted : Nat) (what : String) (transcriptChars : Int) : List Char :=
  charsOf "[output truncated " ++ '—' :: charsOf " first " ++ decimal omitted ++ charsOf what ++
    charsOf " omitted; " ++ retention transcriptChars ++ charsOf "]"

/-- The result without the host's own words around the frame. -/
structure Frame where
  hostPrefix : List Char
  wrapped : List Rune
  hostNote : List Char

def withoutError (result : List Rune) : Frame :=
  if (charsOf "Error: " ++ openSentinel).isPrefixOf (text result) then
    ⟨charsOf "Error: ", result.drop 7, []⟩
  else ⟨[], result, []⟩

def frameOf (result : List Rune) : Frame := let f := withoutError result
  if openSentinel.isPrefixOf (text f.wrapped) &&
      ('\n' :: closeSentinel ++ charsOf "\n[truncated]").isSuffixOf (text f.wrapped) then
    { f with wrapped := f.wrapped.take (f.wrapped.length - 12), hostNote := charsOf "\n[truncated]" }
  else f

namespace Frame

def head (f : Frame) : List Rune := f.wrapped.takeWhile (·.ch ≠ '\n')

def first (f : Frame) : Nat := f.head.length + 1

def last (f : Frame) : Nat := f.wrapped.length - closeSentinel.length - 1

def stands (f : Frame) : Bool :=
  openSentinel.isPrefixOf (text f.wrapped) && ('\n' :: closeSentinel).isSuffixOf (text f.wrapped) &&
    f.first ≤ f.last

def keep (f : Frame) (maxChars : Nat) : Nat :=
  maxChars - f.hostPrefix.length - f.first - closeSentinel.length - 1 - f.hostNote.length

end Frame

section
variable (result : List Rune) (maxChars : Nat)

/-- The runes that came from inside a block are told from the host's; the source sees the
text alone. -/
def truncateToolResult (transcriptChars : Int) : List Rune :=
  if result.length ≤ maxChars then result
  else
    let f := frameOf result
    if f.stands then
      if f.last - f.first ≤ f.keep maxChars then result
      else
        host (f.hostPrefix ++ truncationNote (f.last - f.first - f.keep maxChars)
            " content characters" transcriptChars ++ ['\n']) ++
          f.head ++ host ['\n'] ++ (f.wrapped.drop (f.last - f.keep maxChars)).take (f.keep maxChars) ++
          host ('\n' :: closeSentinel ++ f.hostNote)
    else
      host (truncationNote (result.length - maxChars) " characters" transcriptChars ++ ['\n']) ++
        result.drop (result.length - maxChars)

def Whole : Prop := result.length ≤ maxChars ∨ (frameOf result).stands ∧
    (frameOf result).last - (frameOf result).first ≤ (frameOf result).keep maxChars

def cutPoint : Nat := if (frameOf result).stands then
    (frameOf result).hostPrefix.length + ((frameOf result).last - (frameOf result).keep maxChars)
  else result.length - maxChars

end

def firstSentinel : List Rune → Option Bool
  | [] => none
  | x :: l => (Untrusted.next (x :: l)).or (firstSentinel l)

/-! ### The part behind the cut -/

section
variable {a l : List Rune} {s s' c : Bool} {r r' : List Char}

theorem firstSentinel_skip (h : ∀ i < a.length, Untrusted.next ((a ++ l).drop i) = none) :
    firstSentinel (a ++ l) = firstSentinel l := by
  induction a with
  | nil => rfl
  | cons x a ih =>
    have hx : Untrusted.next (x :: (a ++ l)) = none := h 0 (Nat.zero_lt_succ _)
    rw [cons_append, firstSentinel, hx]
    exact ih fun i hi => h (i + 1) (Nat.succ_lt_succ hi)

theorem reads_first {fin : Bool} (h : reads s l = some fin) :
    firstSentinel l ≠ some s ∧ (firstSentinel l = none → fin = s) := by
  induction l with
  | nil =>
    rw [reads] at h
    exact ⟨by rintro ⟨⟩, fun _ => (Option.some_inj.mp h).symm⟩
  | cons x l ih =>
    rw [firstSentinel]
    cases hnext : Untrusted.next (x :: l) with
    | none =>
      rw [reads_cons_none hnext] at h
      split_ifs at h
      exact ih h
    | some b =>
      rw [reads_some hnext] at h
      split_ifs at h with hbad
      exact ⟨fun heq => hbad (.inl (Option.some_inj.mp heq).symm), by rintro ⟨⟩⟩

theorem reads_iff_first (h : reads s l = some false) :
    reads c l = some false ↔ (firstSentinel l = some false ↔ c) := by
  obtain ⟨hne, hend⟩ := reads_first h
  have hs : firstSentinel l = some false ↔ s := by
    cases hf : firstSentinel l with
    | none => simp [← hend hf]
    | some b =>
      rw [hf] at hne
      cases b <;> cases s <;> simp at hne ⊢
  constructor
  · intro hc
    obtain ⟨hne', hend'⟩ := reads_first hc
    cases hf : firstSentinel l with
    | none => simp [← hend' hf]
    | some b =>
      rw [hf] at hne'
      cases b <;> cases c <;> simp at hne' ⊢
  · intro hc
    obtain rfl : s = c := Bool.eq_iff_iff.mpr (hs.symm.trans hc)
    exact h

theorem reads_suffix_iff (h : reads false (a ++ l) = some false) :
    reads c l = some false ↔ (firstSentinel l = some false ↔ c) := by
  obtain ⟨s, -, hs | ⟨b, k, hk, hlt, -, ⟨r, hr⟩, hin, hs⟩⟩ := reads_split h
  · exact reads_iff_first hs
  · -- The rest of a sentinel is read like any other text.
    have hfree : ∀ i < (l.take ((sentinel b).length - k)).length,
        Untrusted.next ((l.take ((sentinel b).length - k) ++
          l.drop ((sentinel b).length - k)).drop i) = none := by
      intro i hi
      rw [length_take] at hi
      rw [take_append_drop, next_eq_none]
      intro b' h'
      rw [text, map_drop, ← text, ← hr, drop_append_of_le_length (by rw [length_drop]; omega),
        drop_drop] at h'
      exact not_prefix_drop (by omega) (by omega) h'
    have hr1 := @reads_skip c _ _ hfree (.inr hin)
    have hr2 := firstSentinel_skip hfree
    rw [take_append_drop] at hr1 hr2
    rw [hr1, hr2]
    exact reads_iff_first hs

theorem firstSentinel_closing (h : text l = '\n' :: closeSentinel ++ r) : firstSentinel l = some false := by
  cases l with
  | nil => cases h
  | cons x l =>
    obtain ⟨hx, hl⟩ := cons.inj h
    have hnl : Untrusted.next (x :: l) = none := by
      refine next_eq_none.mpr fun b hb => sentinel_ne_nil b ?_
      rw [h] at hb
      exact prefix_nil.mp (prefix_of_notMem (a := []) (notMem_sentinel b).1 hb)
    have hclose : Untrusted.next l = some false := next_eq_some.mpr ⟨r, hl.symm⟩
    rw [firstSentinel, hnl, Option.none_or]
    cases l with
    | nil => cases hclose
    | cons y l => rw [firstSentinel, hclose, Option.some_or]

theorem apart_newline : Apart ('\n' :: r) := apart_cons fun b => (notMem_sentinel b).1

theorem reads_closing_congr {l' : List Rune} (h : text l = '\n' :: closeSentinel ++ r)
    (h' : text l' = '\n' :: closeSentinel ++ r') (hl : reads s l = some false)
    (hl' : reads s' l' = some false) :
    reads c (a ++ l) = some false ↔ reads c (a ++ l') = some false := by
  rw [reads_append (by rw [h]; exact apart_newline), reads_append (by rw [h']; exact apart_newline),
    Option.bind_eq_some_iff, Option.bind_eq_some_iff]
  refine exists_congr fun t => and_congr_right fun _ => ?_
  rw [reads_iff_first hl, reads_iff_first hl', firstSentinel_closing h, firstSentinel_closing h']

end

/-! ### The host's words -/

theorem notMem_retention (transcriptChars : Int) : '[' ∉ retention transcriptChars := by
  have hdecimal : ∀ n, '[' ∉ decimal n := fun n h => absurd (decimal_digits n _ h) (by decide)
  unfold retention
  split_ifs with hall hsome
  · decide
  · rw [decimalInt, if_neg (by omega), mem_append, mem_append]
    rintro ((h | h) | h)
    · exact absurd h (by decide)
    · exact hdecimal _ h
    · exact absurd h (by decide)
  · decide

theorem reads_note {p : List Char} (hp : '[' ∉ p) {what : String} (hw : '[' ∉ charsOf what) (omitted : Nat)
    (transcriptChars : Int) (l : List Rune) :
    reads false (host (p ++ truncationNote omitted what transcriptChars ++ ['\n']) ++ l) = reads false l := by
  have hfree : ∀ b, ¬ sentinel b <:+: p ++ truncationNote omitted what transcriptChars := by
    intro b h
    have hdecimal : '[' ∉ decimal omitted := fun h => absurd (decimal_digits _ _ h) (by decide)
    have hcount : (p ++ truncationNote omitted what transcriptChars).count '[' = 1 := by
      simp only [truncationNote, count_append, count_eq_zero.mpr hp,
        count_eq_zero.mpr hw, count_eq_zero.mpr hdecimal,
        count_eq_zero.mpr (notMem_retention transcriptChars)]
      decide
    have hthree : (sentinel b).count '[' = 3 := by cases b <;> decide
    have := h.sublist.count_le '['
    omega
  refine reads_skip (fun i hi => next_eq_none.mpr fun b h => ?_) (.inr fun x hx => inside_host hx)
  rw [host, length_map, length_append, length_singleton] at hi
  refine not_prefix_line (hfree b) (i := i) (by omega) (text l) ?_
  rwa [text, map_drop, map_append, ← text, ← text, text_host, drop_append_of_le_length
    (by rw [length_append]; omega)] at h

/-! ### The block a frame begins with -/

theorem block_at {ps : List Piece} (hclean : Clean ps) {i : Nat}
    (h : Untrusted.next ((flat ps).drop i) = some true) :
    ∃ pre source content post, flat ps = pre ++ block source content ++ post ∧ pre.length = i := by
  induction ps generalizing i with
  | nil =>
    rw [flat, flatMap_nil, drop_nil] at h
    exact absurd (prefix_nil.mp (next_eq_some.mp h)) (sentinel_ne_nil true)
  | cons p ps ih =>
    have hflat : flat (p :: ps) = p.runes ++ flat ps := flatMap_cons
    rw [hflat] at h ⊢
    rcases lt_or_ge i p.runes.length with hlt | hge
    · cases p with
      | host t =>
        have hnone := hclean.1 i (by simpa [Piece.runes, host] using hlt)
        cases h.symm.trans hnone
      | block source content =>
        have hw := next_eq_some.mp h
        rw [text, map_drop, ← text, text_append, Piece.runes, text_block] at hw
        have hi : i < (wrap source content).length := by
          rw [← text_block, text, length_map]
          exact hlt
        obtain rfl := wrap_cases hi hw
        exact ⟨[], source, content, flat ps, rfl, rfl⟩
    · rw [drop_append, drop_of_length_le hge] at h
      have hclean' : Clean ps := by
        cases p with
        | host t => exact hclean.2
        | block source content => exact hclean
      obtain ⟨pre, source, content, post, heq, hlen⟩ := ih hclean' h
      refine ⟨p.runes ++ pre, source, content, post, by simp only [heq, append_assoc], ?_⟩
      rw [length_append]
      omega

theorem reads_head {source content : List Char} {post : List Rune} (l : List Rune) :
    reads false ((block source content ++ post).takeWhile (·.ch ≠ '\n') ++ (host ['\n'] ++ l)) =
      reads true l := by
  obtain ⟨u, v, hbody, hu⟩ : ∃ u v, body source content = u ++ '\n' :: v ∧ '\n' ∉ u :=
    eq_append_cons_of_mem (by simp [body])
  have hhead : (block source content ++ post).takeWhile (·.ch ≠ '\n')
      = host openSentinel ++ u.map fun c => ⟨c, true⟩ := by
    have hline : ∀ x ∈ host openSentinel ++ u.map fun c => (⟨c, true⟩ : Rune), decide (x.ch ≠ '\n') := by
      intro x hx
      refine decide_eq_true fun hnl => ?_
      rcases mem_append.mp hx with hx | hx
      · obtain ⟨c, hc, rfl⟩ := mem_map.mp hx
        exact (notMem_sentinel true).1 (hnl ▸ hc)
      · obtain ⟨c, hc, rfl⟩ := mem_map.mp hx
        exact hu (hnl ▸ hc)
    rw [block, hbody, map_append, ← append_assoc, append_assoc, append_assoc,
      takeWhile_append_of_pos hline, map_cons, cons_append,
      takeWhile_cons_of_neg (by simp), append_nil]
  rw [hhead, append_assoc]
  refine (@reads_sentinel false _ _ true (text_host _) (fun x hx => inside_host hx) (by rintro ⟨⟩)).trans ?_
  rw [← append_assoc]
  refine reads_skip (fun i hi => next_eq_none.mpr fun b h => ?_) (.inl rfl)
  rw [length_append, length_map] at hi
  refine not_prefix_line (fun hin => not_infix_body b source content (hin.trans ?_)) (i := i)
    (Nat.lt_succ_iff.mp hi) (text l) ?_
  · rw [hbody]
    exact (prefix_append ..).isInfix
  · rwa [text, map_drop, map_append, map_append, map_map, Function.comp_def,
      map_id', ← text, ← text, text_host, drop_append_of_le_length
      (by rw [length_append]; exact le_of_lt hi)] at h

/-! ### The frame -/

theorem withoutError_spec (result : List Rune) :
    '[' ∉ (withoutError result).hostPrefix ∧ (withoutError result).hostNote = [] ∧
      ∃ p, result = p ++ (withoutError result).wrapped ∧ text p = (withoutError result).hostPrefix := by
  unfold withoutError
  split_ifs with herror
  · refine ⟨(by decide : '[' ∉ charsOf "Error: "), rfl, result.take 7, (take_append_drop ..).symm, ?_⟩
    obtain ⟨r, hr⟩ := isPrefixOf_iff_prefix.mp herror
    rw [text, map_take, ← text, ← hr]
    rfl
  · exact ⟨not_mem_nil, rfl, [], rfl, rfl⟩

theorem frameOf_spec (result : List Rune) : '[' ∉ (frameOf result).hostPrefix ∧
      ((frameOf result).hostNote = [] ∨ (frameOf result).hostNote = charsOf "\n[truncated]") ∧
      ∃ p q, result = p ++ ((frameOf result).wrapped ++ q) ∧ text p = (frameOf result).hostPrefix ∧
        text q = (frameOf result).hostNote := by
  obtain ⟨hopens, hnote, p, hp, htext⟩ := withoutError_spec result
  unfold frameOf
  dsimp only
  split_ifs with hshape
  · obtain ⟨t, ht⟩ := isSuffixOf_iff_suffix.mp ((Bool.and_eq_true ..).mp hshape).2
    rw [← append_assoc] at ht
    have hlen := congrArg length ht
    rw [length_append, text, length_map] at hlen
    have htwelve : (charsOf "\n[truncated]").length = 12 := by decide
    refine ⟨hopens, .inr rfl, p, (withoutError result).wrapped.drop
      ((withoutError result).wrapped.length - 12), ?_, htext, ?_⟩
    · rw [take_append_drop]
      exact hp
    · rw [text, map_drop, ← text, ← ht]
      exact drop_left' (by omega)
  · exact ⟨hopens, .inl hnote, p, [], by rw [append_nil]; exact hp, htext, hnote.symm⟩

theorem reads_reframed {ps : List Piece} (hclean : Clean ps) (hstands : (frameOf (flat ps)).stands)
    {keep : Nat} (hkeep : keep < (frameOf (flat ps)).last - (frameOf (flat ps)).first) (omitted : Nat)
    (transcriptChars : Int) :
    Framed (host ((frameOf (flat ps)).hostPrefix ++
          truncationNote omitted " content characters" transcriptChars ++ ['\n']) ++
        (frameOf (flat ps)).head ++ host ['\n'] ++
        ((frameOf (flat ps)).wrapped.drop ((frameOf (flat ps)).last - keep)).take keep ++
        host ('\n' :: closeSentinel ++ (frameOf (flat ps)).hostNote)) ↔
      firstSentinel ((flat ps).drop ((frameOf (flat ps)).hostPrefix.length +
        ((frameOf (flat ps)).last - keep))) = some false := by
  have hflat := reads_flat hclean
  obtain ⟨hopens, hnote, p, q, hresult, hp, hq⟩ := frameOf_spec (flat ps)
  generalize frameOf (flat ps) = f at *
  obtain ⟨hshape, hle⟩ := (Bool.and_eq_true ..).mp hstands
  obtain ⟨hopen, hclose⟩ := (Bool.and_eq_true ..).mp hshape
  obtain ⟨r, hr⟩ := isPrefixOf_iff_prefix.mp hopen
  obtain ⟨t, ht⟩ := isSuffixOf_iff_suffix.mp hclose
  have hlen := congrArg length ht
  rw [length_append, length_cons, text, length_map] at hlen
  have hlast : f.last = t.length := by
    rw [Frame.last]
    omega
  -- the frame begins with a block of its own
  have hnext : Untrusted.next ((flat ps).drop p.length) = some true := by
    rw [hresult, drop_left]
    exact next_eq_some.mpr ⟨r ++ text q, by rw [text_append, ← hr, append_assoc]; rfl⟩
  obtain ⟨pre, source, content, post, heq, hpre⟩ := block_at hclean hnext
  rw [hresult, append_assoc] at heq
  have hhead : f.head = (block source content ++ post).takeWhile (·.ch ≠ '\n') := by
    rw [← append_inj_right heq hpre.symm, takeWhile_append, if_neg]
    · rfl
    · have hfirst := of_decide_eq_true hle
      rw [Frame.first, Frame.head] at hfirst
      omega
  -- and ends with the end of one, as the frame does that is set anew
  have hend : text (f.wrapped.drop f.last ++ q) = '\n' :: closeSentinel ++ f.hostNote := by
    rw [text_append, hq, text, map_drop, ← text, ← ht, hlast, drop_left]
  have htail : (flat ps).drop (f.hostPrefix.length + (f.last - keep)) =
      (f.wrapped.drop (f.last - keep)).take keep ++ (f.wrapped.drop f.last ++ q) := by
    have hdrop : f.wrapped.drop f.last = (f.wrapped.drop (f.last - keep)).drop keep := by
      rw [drop_drop, Nat.sub_add_cancel (by omega)]
    rw [hresult, ← hp, text, length_map, ← drop_drop, drop_left,
      drop_append_of_le_length (by omega), ← append_assoc, hdrop, take_append_drop]
  obtain ⟨s', hs'⟩ : ∃ s', reads s' (f.wrapped.drop f.last ++ q) = some false := by
    rw [hresult, ← take_append_drop f.last f.wrapped, append_assoc, ← append_assoc,
      reads_append (by rw [hend]; exact apart_newline)] at hflat
    obtain ⟨s', -, hs'⟩ := Option.bind_eq_some_iff.mp hflat
    exact ⟨s', hs'⟩
  have hfree : ∀ b, ¬ sentinel b <:+: f.hostNote := by rcases hnote with h | h <;> rw [h] <;> decide
  have hclosed := reads_closing (fun b => (notMem_sentinel b).1) hfree
  rw [Framed, append_assoc, append_assoc, append_assoc, reads_note hopens (by decide),
    hhead, reads_head, reads_closing_congr (text_host _) hend hclosed hs', ← htail]
  rw [← take_append_drop (f.hostPrefix.length + (f.last - keep)) (flat ps)] at hflat
  rw [reads_suffix_iff hflat, iff_true_right rfl]

/-- What `truncateToolResult` shows keeps its frames, where it is not the whole, exactly if the
result is taken for one frame where the cut falls in a block and for none elsewhere: the first
sentinel behind the cut closes a block if and only if the frame is set anew. -/
theorem truncateToolResult_framed_iff {ps : List Piece} (hclean : Clean ps) (maxChars : Nat)
    (transcriptChars : Int) :
    Framed (truncateToolResult (flat ps) maxChars transcriptChars) ↔ Whole (flat ps) maxChars ∨
        (firstSentinel ((flat ps).drop (cutPoint (flat ps) maxChars)) = some false ↔
          (frameOf (flat ps)).stands) := by
  have hflat := reads_flat hclean
  unfold truncateToolResult Whole cutPoint
  by_cases hfits : (flat ps).length ≤ maxChars
  · simp only [hfits, true_or, iff_true]
    exact hflat
  simp only [hfits, false_or]
  by_cases hstands : (frameOf (flat ps)).stands
  · simp only [hstands, true_and]
    by_cases hkeep : (frameOf (flat ps)).last - (frameOf (flat ps)).first ≤ (frameOf (flat ps)).keep maxChars
    · simp only [hkeep, true_or, iff_true]
      exact hflat
    simp only [hkeep, false_or, iff_true]
    exact reads_reframed hclean hstands (by omega) _ _
  · simp only [hstands, if_false, false_and, false_or, Bool.false_eq_true]
    rw [Framed, ← nil_append (truncationNote _ _ _), reads_note not_mem_nil (by decide)]
    rw [← take_append_drop ((flat ps).length - maxChars) (flat ps)] at hflat
    rw [reads_suffix_iff hflat, Bool.false_eq_true]

theorem truncateToolResult_framed_iff_oneBlock :
    Framed (truncateToolResult (flat [.block [] (replicate 80 'x')]) 100 0) ↔
      Whole (flat [.block [] (replicate 80 'x')]) 100 ∨
        (firstSentinel ((flat [.block [] (replicate 80 'x')]).drop
          (cutPoint (flat [.block [] (replicate 80 'x')]) 100)) = some false ↔
            (frameOf (flat [.block [] (replicate 80 'x')])).stands) :=
  truncateToolResult_framed_iff (by unfold Clean Clean; decide +kernel) 100 0

/-- A note of the host's before the block, and the tail is shown without its frame. -/
theorem truncateToolResult_unframed :
    Clean [.host (charsOf "Fetched: "), .block [] (replicate 80 'x')] ∧
      (truncateToolResult (flat [.host (charsOf "Fetched: "), .block [] (replicate 80 'x')]) 60 0).drop 85 =
        (replicate 23 ⟨'x', true⟩ ++ ⟨'\n', true⟩ :: host closeSentinel) ∧
      ¬ Framed (truncateToolResult
        (flat [.host (charsOf "Fetched: "), .block [] (replicate 80 'x')]) 60 0) := by
  unfold Clean Clean Clean
  decide +kernel

end AiiOs.Conversation
