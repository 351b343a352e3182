import AiiOs.Untrusted.Framing
import Mathlib.Data.List.DropRight

/-! internal/untrusted: `Cut` keeps the frames of what it cuts, and `Wrap` sets one frame. -/

namespace AiiOs.Untrusted
open Lib List

/-- `strings.LastIndex`. -/
def lastIndex (m : List Char) : List Rune → Option Nat
  | [] => none
  | x :: l =>
    match lastIndex m l with
    | some i => some (i + 1)
    | none => if m.isPrefixOf (text (x :: l)) then some 0 else none

def later : Option Nat → Option Nat → Bool
  | some i, some j => j < i
  | some _, none => true
  | none, _ => false

/-- The end of the head that begins a sentinel is taken off, the longest one first. -/
def dropPartial (m : List Char) (head : List Rune) : List Rune :=
  match (range' 3 (m.length - 3)).reverse.find?
      fun n => text (head.drop (head.length - n)) = m.take n with
  | some n => head.take (head.length - n)
  | none => head

def blank (x : Rune) : Bool := x.ch = ' ' || x.ch = '\n'

def cut (s : List Rune) (chars : Int) (mark : List Char) : List Rune :=
  if s.length ≤ chars then s
  else
    let head := s.take (chars - mark.length).toNat
    let head := dropPartial closeSentinel (dropPartial openSentinel head)
    if later (lastIndex openSentinel head) (lastIndex closeSentinel head) then
      head.rdropWhile blank ++ host (' ' :: closeSentinel ++ mark)
    else head ++ host mark

section
variable {m : List Char} {a l : List Rune} {st s : Bool} {t : List Char}

theorem lastIndex_skip (h : ∀ i < a.length, ¬ m <+: text ((a ++ l).drop i)) :
    lastIndex m (a ++ l) = (lastIndex m l).map (· + a.length) := by
  induction a with
  | nil => simp
  | cons x a ih =>
    have hx : m.isPrefixOf (text (x :: (a ++ l))) = false :=
      Bool.eq_false_iff.mpr fun hp => h 0 (Nat.zero_lt_succ _) (List.isPrefixOf_iff_prefix.mp hp)
    rw [cons_append, lastIndex, ih fun i hi => h (i + 1) (Nat.succ_lt_succ hi), hx]
    cases lastIndex m l <;> rfl

theorem lastIndex_sentinel {b c : Bool} (h : next l = some b) : lastIndex (sentinel c) l =
      match lastIndex (sentinel c) (l.drop (sentinel b).length) with
      | some i => some (i + (sentinel b).length)
      | none => if c = b then some 0 else none := by
  obtain ⟨r, hr⟩ := next_eq_some.mp h
  obtain ⟨n, hn⟩ := Nat.exists_eq_succ_of_ne_zero (fun h0 => sentinel_ne_nil b (eq_nil_of_length_eq_zero h0))
  cases l with
  | nil => exact absurd (append_eq_nil_iff.mp hr).1 (sentinel_ne_nil b)
  | cons x l =>
    have hlen : (text (x :: l)).length = l.length + 1 := length_map _
    rw [← hr, length_append] at hlen
    have htext : ∀ i ≤ n, text (l.drop i) = (sentinel b).drop (i + 1) ++ r := by
      intro i hi
      rw [← drop_append_of_le_length (by omega), hr]
      simp [text]
    have hskip : lastIndex (sentinel c) l = (lastIndex (sentinel c) (l.drop n)).map (· + n) := by
      have := lastIndex_skip (m := sentinel c) (a := l.take n) (l := l.drop n) ?_
      · rwa [take_append_drop, length_take_of_le (by omega)] at this
      · intro i hi
        rw [take_append_drop, htext i (by rw [length_take] at hi; omega)]
        exact not_prefix_drop (Nat.succ_pos i) (by rw [length_take] at hi; omega)
    rw [lastIndex, hskip, hn, drop_succ_cons]
    cases lastIndex (sentinel c) (l.drop n) with
    | some i => rfl
    | none =>
      have hiff : (sentinel c).isPrefixOf (text (x :: l)) ↔ c = b := by
        rw [List.isPrefixOf_iff_prefix, ← next_eq_some, h, Option.some_inj, eq_comm]
      simp [hiff]

theorem reads_eq_later (h : reads st l = some s) :
    s ↔ later (lastIndex openSentinel l) (lastIndex closeSentinel l) ∨
      (lastIndex openSentinel l = none ∧ lastIndex closeSentinel l = none ∧ st) := by
  -- on the length: one character is passed, or a whole sentinel
  induction hm : l.length using Nat.strong_induction_on generalizing l st with
  | _ n ih =>
    cases hnext : next l with
    | none =>
      cases l with
      | nil =>
        rw [reads] at h
        cases h
        simp [lastIndex, later]
      | cons x l =>
        rw [reads_cons_none hnext] at h
        split_ifs at h
        have hskip : ∀ c, lastIndex (sentinel c) (x :: l) = (lastIndex (sentinel c) l).map (· + 1) := by
          intro c
          refine lastIndex_skip (a := [x]) fun i hi => ?_
          obtain rfl : i = 0 := by simpa using hi
          exact next_eq_none.mp hnext c
        have ho : lastIndex openSentinel (x :: l) = _ := hskip true
        have hc : lastIndex closeSentinel (x :: l) = _ := hskip false
        rw [ih _ (by rw [← hm, length_cons]; omega) h rfl, ho, hc]
        cases hlo : lastIndex openSentinel l <;> cases hlc : lastIndex closeSentinel l <;>
          simp [sentinel, hlo, hlc, later]
    | some b =>
      rw [reads_some hnext] at h
      split_ifs at h
      have hpos := length_pos_of_ne_nil (sentinel_ne_nil b)
      have hlt : (l.drop (sentinel b).length).length < n := by
        have := (next_eq_some.mp hnext).length_le
        rw [text, length_map] at this
        rw [length_drop]
        omega
      have ho : lastIndex openSentinel l = _ := lastIndex_sentinel (c := true) hnext
      have hc : lastIndex closeSentinel l = _ := lastIndex_sentinel (c := false) hnext
      rw [ih _ hlt h rfl, ho, hc]
      cases hlo : lastIndex openSentinel (l.drop (sentinel b).length) <;>
        cases hlc : lastIndex closeSentinel (l.drop (sentinel b).length) <;> cases b <;>
        simp [sentinel, later] at hlo hlc ⊢ <;> simp [hlo, hlc]
      all_goals
        have hclosePos : 0 < closeSentinel.length := by decide
        omega

theorem dropPartial_isPrefix (m : List Char) (head : List Rune) : dropPartial m head <+: head := by
  unfold dropPartial
  split
  · exact take_prefix ..
  · exact prefix_rfl

theorem notMem_of_blank {x : Rune} (h : blank x) (b : Bool) : x.ch ∉ sentinel b := by
  rcases (Bool.or_eq_true ..).mp h with h | h
  · rw [decide_eq_true_eq.mp h]
    exact (notMem_sentinel b).2
  · rw [decide_eq_true_eq.mp h]
    exact (notMem_sentinel b).1

theorem reads_blanks (h : ∀ x ∈ l, blank x) (hl : reads st l = some s) : s = st := by
  induction l with
  | nil =>
    rw [reads] at hl
    exact (Option.some_inj.mp hl).symm
  | cons x l ih =>
    obtain ⟨hx, h⟩ := forall_mem_cons.mp h
    have hnext : next (x :: l) = none := by
      refine next_eq_none.mpr fun b hb => sentinel_ne_nil b ?_
      exact prefix_nil.mp (prefix_of_notMem (a := []) (notMem_of_blank hx b) hb)
    rw [reads_cons_none hnext] at hl
    split_ifs at hl
    exact ih h hl

theorem reads_host (h : ∀ b, ¬ sentinel b <:+: t) : reads st (host t) = some st := by
  have := @reads_skip st (host t) [] (fun i _ => next_eq_none.mpr fun b hb =>
    h b ?_) (.inr fun x hx => inside_host hx)
  · rwa [append_nil, reads] at this
  · rw [append_nil, text, map_drop, ← text, text_host] at hb
    exact hb.isInfix.trans (drop_suffix _ _).isInfix

theorem apart_blanks (h : ∀ x ∈ l, blank x) : Apart (text l) := by
  cases l with
  | nil =>
    rintro b k - hlt hnil
    exact absurd (drop_eq_nil_iff.mp (prefix_nil.mp hnil)) (Nat.not_le_of_lt hlt)
  | cons x l => exact apart_cons (notMem_of_blank (h x (mem_cons_self ..)))

theorem reads_closing {c : Char} (hc : ∀ b, c ∉ sentinel b) (h : ∀ b, ¬ sentinel b <:+: t) :
    reads true (host (c :: closeSentinel ++ t)) = some false := by
  have hsp : next (⟨c, false⟩ :: host (closeSentinel ++ t)) = none := by
    refine next_eq_none.mpr fun b hb => sentinel_ne_nil b ?_
    exact prefix_nil.mp (prefix_of_notMem (a := []) (hc b) hb)
  have hsplit : host (closeSentinel ++ t) = host closeSentinel ++ host t := map_append
  change reads true (⟨c, false⟩ :: host (closeSentinel ++ t)) = some false
  rw [reads_cons_none hsp, hsplit]
  exact (@reads_sentinel true _ _ false (text_host _) (fun x hx => inside_host hx) nofun).trans (reads_host h)

theorem framed_closing {mark : List Char} (hfree : ∀ b, ¬ sentinel b <:+: mark) (hapart : Apart mark)
    (h : reads false l = some s) :
    Framed (if later (lastIndex openSentinel l) (lastIndex closeSentinel l) then
      l.rdropWhile blank ++ host (' ' :: closeSentinel ++ mark) else l ++ host mark) := by
  have hlater := reads_eq_later h
  simp only [Bool.false_eq_true, and_false, or_false] at hlater
  split_ifs with hin
  · obtain rfl := hlater.mpr hin
    have hblank : ∀ x ∈ l.rtakeWhile blank, blank x := fun x => mem_rtakeWhile_imp
    rw [← @rdropWhile_append_rtakeWhile _ blank l, reads_append (apart_blanks hblank)] at h
    obtain ⟨s', hs', hw⟩ := Option.bind_eq_some_iff.mp h
    obtain rfl := reads_blanks hblank hw
    rw [Framed, reads_append, hs', Option.bind_some, reads_closing (fun b => (notMem_sentinel b).2) hfree]
    exact apart_cons fun b => (notMem_sentinel b).2
  · have hs : s = false := Bool.eq_false_iff.mpr fun hs => hin (hlater.mp hs)
    subst hs
    rw [Framed, reads_append (by rwa [text_host]), h, Option.bind_some, reads_host hfree]

end

theorem wrap_cases {source content r : List Char} {b : Bool} {i : Nat}
    (hi : i < (wrap source content).length) (h : sentinel b <+: (wrap source content ++ r).drop i) :
    i = if b then 0 else (openSentinel ++ body source content).length := by
  have hsame : ∀ {b b' : Bool} {t : List Char}, sentinel b <+: t → sentinel b' <+: t → b = b' := by
    intro b b' t h h'
    rw [← text_host t, ← next_eq_some] at h h'
    exact Option.some_inj.mp (h.symm.trans h')
  rcases Nat.eq_zero_or_pos i with rfl | hpos
  · obtain rfl : b := hsame h ⟨body source content ++ closeSentinel ++ r, by simp [wrap, sentinel]⟩
    rfl
  rw [wrap, append_assoc] at h
  rw [wrap, length_append] at hi
  rcases lt_or_ge i (openSentinel ++ body source content).length with hlt | hge
  · rw [drop_append_of_le_length (le_of_lt hlt)] at h
    rcases lt_or_ge i openSentinel.length with hlt' | hge
    · rw [drop_append_of_le_length (le_of_lt hlt'), append_assoc] at h
      exact absurd h (not_prefix_drop (b := true) hpos hlt')
    · rw [drop_append, drop_of_length_le hge] at h
      rw [length_append] at hlt
      exact absurd h (not_prefix_body (by omega) b _)
  · obtain ⟨k, rfl⟩ := Nat.exists_eq_add_of_le hge
    rw [← drop_drop, drop_left, drop_append_of_le_length (by omega)] at h
    rcases Nat.eq_zero_or_pos k with rfl | hk
    · obtain rfl : b = false := hsame h (prefix_append ..)
      rfl
    · have hlt : k < closeSentinel.length := by omega
      exact absurd h (not_prefix_drop (b := false) hk hlt)

theorem prefix_drop_wrap (source content : List Char) (b : Bool) (i : Nat) :
    sentinel b <+: (wrap source content).drop i ↔
      i = if b then 0 else (openSentinel ++ body source content).length := by
  constructor
  · intro h
    refine wrap_cases (r := []) ?_ (by rwa [append_nil])
    by_contra hlt
    rw [drop_of_length_le (Nat.le_of_not_lt hlt)] at h
    exact sentinel_ne_nil b (prefix_nil.mp h)
  · rintro rfl
    cases b with
    | true => exact ⟨body source content ++ closeSentinel, by simp [wrap, sentinel]⟩
    | false => exact ⟨[], by simp [wrap, sentinel]⟩

/-- A cut leaves every frame whole, if the mark is free of sentinels and does not go on with the
rest of one; a wrapped text has one sentinel of each kind, at its start and at its end. -/
theorem cut_framed {ps : List Piece} (hclean : Clean ps) (chars : Int) {mark : List Char}
    (hfree : ∀ b, ¬ sentinel b <:+: mark) (hapart : Apart mark) :
    Framed (cut (flat ps) chars mark) ∧
      ∀ source content b i, sentinel b <+: (wrap source content).drop i ↔
        i = if b then 0 else (openSentinel ++ body source content).length := by
  refine ⟨?_, prefix_drop_wrap⟩
  unfold cut
  split_ifs with hfits
  · exact reads_flat hclean
  · -- Whatever is taken off, what is left begins the text.
    obtain ⟨r, hr⟩ := (dropPartial_isPrefix closeSentinel _).trans
      ((dropPartial_isPrefix openSentinel _).trans
        (List.take_prefix (chars - mark.length).toNat (flat ps)))
    obtain ⟨s, hs, -⟩ := reads_split (hr ▸ reads_flat hclean)
    exact framed_closing hfree hapart hs

theorem cut_framed_oneBlock :
    Framed (cut (flat [.host (charsOf "note "), .block [] (charsOf "content")]) 40 ['.', '.', '.']) ∧
      ∀ source content b i, sentinel b <+: (wrap source content).drop i ↔
        i = if b then 0 else (openSentinel ++ body source content).length :=
  cut_framed (by unfold Clean Clean Clean; decide +kernel) 40 (by decide +kernel)
    (apart_cons (by cases · <;> decide))

/-- The mark completes the bracket the cut has left. -/
theorem cut_completes_sentinel : Clean [.host ('[' :: replicate 40 'x')] ∧
      (∀ b, ¬ sentinel b <:+: openSentinel.drop 1) ∧
      cut (flat [.host ('[' :: replicate 40 'x')]) 32 (openSentinel.drop 1) = host openSentinel ∧
      ¬ Framed (cut (flat [.host ('[' :: replicate 40 'x')]) 32 (openSentinel.drop 1)) := by
  unfold Clean Clean
  decide +kernel

end AiiOs.Untrusted
