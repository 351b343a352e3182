import AiiOs.Lib.Text
import Mathlib.Data.List.Infix

/-! internal/untrusted: external text is wrapped between two sentinels, and a wrapped text is
cut to a length with its frame kept. A string is the list of its runes; the sentinels are
ASCII, so they stand in the runes where they stand in the bytes. -/

namespace AiiOs.Untrusted
open Lib List

def openSentinel : List Char := charsOf "[[[EXTERNAL_UNTRUSTED_CONTENT]]]"

def closeSentinel : List Char := charsOf "[[[END_EXTERNAL_UNTRUSTED_CONTENT]]]"

def forgedNotice : List Char := charsOf "(forged sentinel removed)"

def sentinel (opens : Bool) : List Char := if opens then openSentinel else closeSentinel

/-- `strings.ReplaceAll`. -/
def replaceAll (old new : List Char) : List Char → List Char
  | [] => []
  | c :: cs =>
    if old.isPrefixOf (c :: cs) then new ++ replaceAll old new (cs.drop (old.length - 1))
    else c :: replaceAll old new cs
termination_by s => s.length
decreasing_by all_goals simp only [length_cons, length_drop]; omega

def scrub (s : List Char) : List Char :=
  replaceAll openSentinel forgedNotice (replaceAll closeSentinel forgedNotice s)

def body (source content : List Char) : List Char :=
  (if scrub source ≠ [] then charsOf " source: " ++ scrub source else []) ++
    '\n' :: scrub content ++ ['\n']

def wrap (source content : List Char) : List Char :=
  openSentinel ++ body source content ++ closeSentinel

/-! ### Scrubbed text -/

section
variable {m a b : List Char} {x : Char}

theorem prefix_of_notMem (hx : x ∉ m) (h : m <+: a ++ x :: b) : m <+: a := by
  rcases prefix_or_prefix_of_prefix h (prefix_append a (x :: b)) with h' | ⟨r, hr⟩
  · exact h'
  · cases r with
    | nil => exact ⟨[], by rw [append_nil] at hr ⊢; exact hr.symm⟩
    | cons y r =>
      obtain ⟨q, hq⟩ := h
      rw [← hr, append_assoc, append_cancel_left_eq] at hq
      obtain ⟨rfl, -⟩ := cons.inj hq
      exact absurd (hr ▸ mem_append_right _ (mem_cons_self ..)) hx

theorem infix_of_notMem (hx : x ∉ m) (h : m <:+: a ++ x :: b) : m <:+: a ∨ m <:+: b := by
  induction a with
  | nil =>
    rcases infix_cons_iff.mp h with h | h
    · exact .inl (prefix_of_notMem hx h).isInfix
    · exact .inr h
  | cons y a ih =>
    rcases infix_cons_iff.mp h with h | h
    · exact .inl (prefix_of_notMem hx (a := y :: a) h).isInfix
    · exact (ih h).imp_left fun h => infix_cons_iff.mpr (.inr h)

theorem infix_of_infix_append {new : List Char} (hnew : ∀ c ∈ new, c ∉ m) (hne : m ≠ [])
    (h : m <:+: new ++ b) : m <:+: b := by
  induction new with
  | nil => exact h
  | cons c new ih =>
    obtain ⟨hc, hnew⟩ := forall_mem_cons.mp hnew
    rcases infix_of_notMem (a := []) hc h with h | h
    · exact absurd (infix_nil.mp h) hne
    · exact ih hnew h

theorem infix_replaceAll {old new s : List Char} (hnew : ∀ c ∈ new, c ∉ m) (hnil : new ≠ [])
    (hne : m ≠ []) (h : m <:+: replaceAll old new s) : m <:+: s ∧ m ≠ old := by
  have hopens : ∀ {s m' : List Char}, (∀ c ∈ new, c ∉ m') → m' <+: replaceAll old new s → m' <+: s := by
    intro s
    induction s using replaceAll.induct old with
    | case1 => exact fun _ h => by simpa [replaceAll] using h
    | case2 c cs hold ih =>
      intro m' hm h
      rw [replaceAll, if_pos hold] at h
      obtain ⟨d, new', rfl⟩ := exists_cons_of_ne_nil hnil
      have hnil' := prefix_of_notMem (a := []) (hm d (mem_cons_self ..)) h
      rw [prefix_nil.mp hnil']
      exact nil_prefix
    | case3 c cs hold ih =>
      intro m' hm h
      rw [replaceAll, if_neg hold] at h
      rcases prefix_cons_iff.mp h with rfl | ⟨t, rfl, ht⟩
      · exact nil_prefix
      · refine prefix_cons_iff.mpr (.inr ⟨t, rfl, ih (fun c hc hmem => ?_) ht⟩)
        exact hm c hc (mem_cons_of_mem _ hmem)
  induction s using replaceAll.induct old with
  | case1 =>
    rw [replaceAll] at h
    exact absurd (infix_nil.mp h) hne
  | case2 c cs hold ih =>
    rw [replaceAll, if_pos hold] at h
    obtain ⟨hin, hold⟩ := ih (infix_of_infix_append hnew hne h)
    exact ⟨hin.trans ((drop_suffix _ cs).isInfix.trans (infix_cons_iff.mpr (.inr infix_rfl))), hold⟩
  | case3 c cs hold ih =>
    have h' := h
    rw [replaceAll, if_neg hold] at h'
    rcases infix_cons_iff.mp h' with hpre | hin
    · have hs : m <+: c :: cs := hopens hnew (by rw [replaceAll, if_neg hold]; exact hpre)
      refine ⟨hs.isInfix, ?_⟩
      rintro rfl
      exact hold (List.isPrefixOf_iff_prefix.mpr hs)
    · obtain ⟨hin, hold⟩ := ih hin
      exact ⟨infix_cons_iff.mpr (.inr hin), hold⟩

end

theorem sentinel_ne_nil (b : Bool) : sentinel b ≠ [] := by cases b <;> decide

theorem notMem_sentinel (b : Bool) : '\n' ∉ sentinel b ∧ ' ' ∉ sentinel b := by
  cases b <;> decide

theorem not_infix_scrub (b : Bool) (s : List Char) : ¬ sentinel b <:+: scrub s := by
  intro h
  have hnew : ∀ c ∈ forgedNotice, c ∉ sentinel b :=
    @of_decide_eq_true _ (decidableBAll _ _) (by cases b <;> decide)
  obtain ⟨h, hopen⟩ := infix_replaceAll hnew (by decide) (sentinel_ne_nil b) h
  obtain ⟨-, hclose⟩ := infix_replaceAll hnew (by decide) (sentinel_ne_nil b) h
  cases b with
  | true => exact hopen rfl
  | false => exact hclose rfl

theorem not_infix_body (b : Bool) (source content : List Char) : ¬ sentinel b <:+: body source content := by
  intro h
  obtain ⟨hnl, hsp⟩ := notMem_sentinel b
  rw [body, append_assoc] at h
  rcases infix_of_notMem hnl h with h | h
  · split_ifs at h
    · rcases infix_of_notMem (a := charsOf " source:") (b := scrub source) hsp h with h | h
      · revert h
        cases b <;> decide
      · exact not_infix_scrub b source h
    · exact sentinel_ne_nil b (infix_nil.mp h)
  · rcases infix_of_notMem hnl h with h | h
    · exact not_infix_scrub b content h
    · exact sentinel_ne_nil b (infix_nil.mp h)

theorem not_prefix_line {t : List Char} {b : Bool} (h : ¬ sentinel b <:+: t) {i : Nat}
    (hi : i ≤ t.length) (r : List Char) : ¬ sentinel b <+: (t ++ ['\n']).drop i ++ r := by
  intro hp
  rw [drop_append_of_le_length hi, append_assoc] at hp
  exact h ((prefix_of_notMem (notMem_sentinel b).1 hp).isInfix.trans (drop_suffix _ _).isInfix)

theorem not_prefix_body {source content : List Char} {i : Nat}
    (hi : i < (body source content).length) (b : Bool) (r : List Char) :
    ¬ sentinel b <+: (body source content).drop i ++ r := by
  have hbody : (body source content).dropLast ++ ['\n'] = body source content := by rw [body, dropLast_concat]
  rw [← hbody]
  refine not_prefix_line (fun h => ?_) (by rw [length_dropLast]; omega) r
  exact not_infix_body b source content (h.trans (List.dropLast_prefix _).isInfix)

/-! ### Texts with blocks -/

structure Rune where
  ch : Char
  inside : Bool
  deriving DecidableEq, Repr

def text (l : List Rune) : List Char := l.map Rune.ch

def host (t : List Char) : List Rune := t.map fun c => ⟨c, false⟩

def block (source content : List Char) : List Rune :=
  host openSentinel ++ ((body source content).map fun c => ⟨c, true⟩) ++ host closeSentinel

@[simp] theorem text_append (a b : List Rune) : text (a ++ b) = text a ++ text b := map_append

@[simp] theorem text_host (t : List Char) : text (host t) = t := by simp [text, host, Function.comp_def]

theorem inside_host {t : List Char} {x : Rune} (h : x ∈ host t) : x.inside = false := by
  obtain ⟨c, -, rfl⟩ := mem_map.mp h
  rfl

theorem text_block (source content : List Char) : text (block source content) = wrap source content := by
  simp [block, wrap, text, host, Function.comp_def]

def next (l : List Rune) : Option Bool := if openSentinel.isPrefixOf (text l) then some true
  else if closeSentinel.isPrefixOf (text l) then some false
  else none

/-- A reader who stands inside a block or outside of one, and where that reader stands at the
end. A frame is broken by a sentinel that opens or closes twice or was not set by the host,
and by a rune from inside a block that stands outside of all. -/
def reads (inside : Bool) : List Rune → Option Bool
  | [] => some inside
  | x :: l =>
    match next (x :: l) with
    | some b =>
      if inside = b ∨ ((x :: l).take (sentinel b).length).any Rune.inside then none
      else reads b (l.drop ((sentinel b).length - 1))
    | none => if !inside && x.inside then none else reads inside l
termination_by l => l.length
decreasing_by all_goals simp only [length_cons, length_drop]; omega

/-- Every sentinel has its counterpart, and what came from inside a block is inside one. -/
def Framed (l : List Rune) : Prop := reads false l = some false

instance (l : List Rune) : Decidable (Framed l) := inferInstanceAs (Decidable (_ = _))

inductive Piece
  | host (t : List Char)
  | block (source content : List Char)

def Piece.runes : Piece → List Rune
  | .host t => Untrusted.host t
  | .block source content => Untrusted.block source content

def flat (ps : List Piece) : List Rune := ps.flatMap Piece.runes

/-- No sentinel begins in the host's own text, also not one that ends behind it. -/
def Clean : List Piece → Prop
  | [] => True
  | .host t :: ps => (∀ i < t.length, next ((host t ++ flat ps).drop i) = none) ∧ Clean ps
  | .block _ _ :: ps => Clean ps

/-! ### The reader -/

theorem next_eq_some {l : List Rune} {b : Bool} : next l = some b ↔ sentinel b <+: text l := by
  have hboth : openSentinel <+: text l → ¬ closeSentinel <+: text l := fun h h' =>
    absurd (prefix_of_prefix_length_le h h' (by decide)) (by decide)
  unfold next
  simp only [List.isPrefixOf_iff_prefix]
  split_ifs with ho hc
  · cases b with
    | true => exact iff_of_true rfl ho
    | false => exact iff_of_false nofun (hboth ho)
  · cases b with
    | true => exact iff_of_false nofun ho
    | false => exact iff_of_true rfl hc
  · cases b with
    | true => exact iff_of_false nofun ho
    | false => exact iff_of_false nofun hc

theorem next_eq_none {l : List Rune} : next l = none ↔ ∀ b, ¬ sentinel b <+: text l := by
  rw [Option.eq_none_iff_forall_ne_some]
  exact forall_congr' fun b => not_congr next_eq_some

theorem not_prefix_drop {b b' : Bool} {r : List Char} {k : Nat} (hk : 0 < k)
    (hlt : k < (sentinel b).length) : ¬ sentinel b' <+: (sentinel b).drop k ++ r := by
  intro h
  have hdec : ∀ b b', ∀ k < (sentinel b).length, 0 < k →
      ¬ (sentinel b).drop k <+: sentinel b' ∧ ¬ sentinel b' <+: (sentinel b).drop k := by decide
  rcases prefix_or_prefix_of_prefix h (prefix_append ..) with h | h
  · exact (hdec b b' k hlt hk).2 h
  · exact (hdec b b' k hlt hk).1 h

section
variable {st : Bool} {a l : List Rune} {x : Rune}

theorem reads_cons_none (h : next (x :: l) = none) :
    reads st (x :: l) = if !st && x.inside then none else reads st l := by
  rw [reads, h]

theorem reads_some {b : Bool} (h : next l = some b) :
    reads st l = if st = b ∨ (l.take (sentinel b).length).any Rune.inside then none
      else reads b (l.drop (sentinel b).length) := by
  obtain ⟨n, hn⟩ := Nat.exists_eq_succ_of_ne_zero (fun h0 => sentinel_ne_nil b (eq_nil_of_length_eq_zero h0))
  cases l with
  | nil => exact absurd (prefix_nil.mp (next_eq_some.mp h)) (sentinel_ne_nil b)
  | cons x l =>
    rw [reads, h]
    simp only [hn, Nat.succ_sub_one, drop_succ_cons]

theorem reads_skip (h : ∀ i < a.length, next ((a ++ l).drop i) = none)
    (hin : st ∨ ∀ x ∈ a, x.inside = false) : reads st (a ++ l) = reads st l := by
  induction a with
  | nil => rfl
  | cons x a ih =>
    have hx : next (x :: (a ++ l)) = none := h 0 (Nat.zero_lt_succ _)
    rw [cons_append, reads_cons_none hx, if_neg]
    · exact ih (fun i hi => h (i + 1) (Nat.succ_lt_succ hi))
        (hin.imp_right fun h y hy => h y (mem_cons_of_mem _ hy))
    · rcases hin with rfl | hin
      · simp
      · simp [hin x (mem_cons_self ..)]

theorem reads_sentinel {b : Bool} (ha : text a = sentinel b) (hin : ∀ x ∈ a, x.inside = false)
    (hne : st ≠ b) : reads st (a ++ l) = reads b l := by
  have hlen : a.length = (sentinel b).length := by rw [← ha, text, length_map]
  have hnext : next (a ++ l) = some b := next_eq_some.mpr ⟨text l, by rw [text_append, ha]⟩
  rw [reads_some hnext, ← hlen, take_left, drop_left, if_neg]
  rintro (h | h)
  · exact hne h
  · obtain ⟨y, hy, hyin⟩ := any_eq_true.mp h
    rw [hin y hy] at hyin
    cases hyin

theorem reads_body (source content : List Char) :
    reads true (((body source content).map fun c => ⟨c, true⟩) ++ l) = reads true l := by
  refine reads_skip (fun i hi => next_eq_none.mpr fun b h => ?_) (.inl rfl)
  rw [length_map] at hi
  refine not_prefix_body hi b (text l) ?_
  rwa [drop_append_of_le_length (by rw [length_map]; omega), text_append, text,
    ← map_drop, map_map, Function.comp_def, map_id'] at h

theorem reads_flat {ps : List Piece} (h : Clean ps) : reads false (flat ps) = some false := by
  induction ps with
  | nil => rw [flat, flatMap_nil, reads]
  | cons p ps ih =>
    rw [flat, flatMap_cons]
    cases p with
    | host t =>
      refine (reads_skip (fun i hi => h.1 i ?_) (.inr fun x hx => inside_host hx)).trans (ih h.2)
      simpa [host] using hi
    | block source content =>
      simp only [Piece.runes, block, append_assoc]
      refine (@reads_sentinel false _ _ true (text_host _) (fun x hx => inside_host hx) nofun).trans ?_
      rw [reads_body]
      exact (@reads_sentinel true _ _ false (text_host _) (fun x hx => inside_host hx) nofun).trans (ih h)

/-! ### Parts of a text -/

/-- The text does not go on with the rest of a sentinel. -/
def Apart (t : List Char) : Prop :=
  ∀ b k, 0 < k → k < (sentinel b).length → ¬ (sentinel b).drop k <+: t

theorem apart_cons {c : Char} {t : List Char} (h : ∀ b, c ∉ sentinel b) : Apart (c :: t) := by
  rintro b k - hlt ⟨r, hr⟩
  obtain ⟨d, rest, hd⟩ :=
    exists_cons_of_ne_nil (fun hnil => absurd (drop_eq_nil_iff.mp hnil) (Nat.not_le_of_lt hlt))
  rw [hd] at hr
  obtain ⟨rfl, -⟩ := cons.inj hr
  exact h b (mem_of_mem_drop (hd ▸ mem_cons_self ..))

/-- A sentinel that begins in `a` ends there or behind it. -/
theorem sentinel_cases {b : Bool} (h : next (a ++ l) = some b) :
    (next a = some b ∧ (sentinel b).length ≤ a.length) ∨
      (a.length < (sentinel b).length ∧ text a = (sentinel b).take a.length ∧
        (sentinel b).drop a.length <+: text l) := by
  have hpre := next_eq_some.mp h
  rw [text_append] at hpre
  have hlen : (text a).length = a.length := length_map _
  rcases lt_or_ge a.length (sentinel b).length with hlt | hge
  · obtain ⟨r, hr⟩ := prefix_of_prefix_length_le (prefix_append ..) hpre (by omega)
    rw [← hr, prefix_append_right_inj] at hpre
    refine .inr ⟨hlt, ?_, ?_⟩
    · rw [← hr, ← hlen, take_left]
    · rwa [← hr, ← hlen, drop_left]
  · exact .inl ⟨next_eq_some.mpr (prefix_of_prefix_length_le hpre (prefix_append ..) (by omega)), hge⟩

theorem next_eq_none_of_append (h : next (a ++ l) = none) : next a = none := by
  rw [next_eq_none] at h ⊢
  exact fun b hb => h b (hb.trans (by rw [text_append]; exact prefix_append ..))

theorem reads_append (hl : Apart (text l)) : reads st (a ++ l) = (reads st a).bind (reads · l) := by
  induction hm : a.length using Nat.strong_induction_on generalizing a st with
  | _ n ih =>
    cases a with
    | nil => rw [nil_append, reads, Option.bind_some]
    | cons x a =>
      rw [length_cons] at hm
      cases hnext : next (x :: a ++ l) with
      | none =>
        have hx := next_eq_none_of_append hnext
        rw [cons_append] at hnext ⊢
        rw [reads_cons_none hx, reads_cons_none hnext]
        split_ifs
        · rfl
        · exact ih _ (by omega) rfl
      | some b =>
        rcases sentinel_cases hnext with ⟨hx, hle⟩ | ⟨hlt, -, hrest⟩
        · have hpos := length_pos_of_ne_nil (sentinel_ne_nil b)
          rw [reads_some hx, reads_some hnext, take_append_of_le_length hle, drop_append_of_le_length hle]
          split_ifs
          · rfl
          · refine ih _ ?_ rfl
            rw [length_drop, length_cons]
            omega
        · exact absurd hrest (hl b _ (Nat.zero_lt_succ _) hlt)

theorem reads_split {fin : Bool} (h : reads st (a ++ l) = some fin) :
    ∃ s, reads st a = some s ∧ (reads s l = some fin ∨
      ∃ b k, 0 < k ∧ k < (sentinel b).length ∧ s ≠ b ∧ (sentinel b).drop k <+: text l ∧
        (∀ x ∈ l.take ((sentinel b).length - k), x.inside = false) ∧
        reads b (l.drop ((sentinel b).length - k)) = some fin) := by
  induction hm : a.length using Nat.strong_induction_on generalizing a st with
  | _ n ih =>
    cases a with
    | nil => exact ⟨st, by rw [reads], .inl h⟩
    | cons x a =>
      rw [length_cons] at hm
      cases hnext : next (x :: a ++ l) with
      | none =>
        have hx := next_eq_none_of_append hnext
        rw [cons_append] at hnext h
        rw [reads_cons_none hnext] at h
        rw [reads_cons_none hx]
        split_ifs at h ⊢
        exact ih _ (by omega) h rfl
      | some b =>
        rw [reads_some hnext] at h
        split_ifs at h with hbad
        push Not at hbad
        rcases sentinel_cases hnext with ⟨hx, hle⟩ | ⟨hlt, htake, hrest⟩
        · have hpos := length_pos_of_ne_nil (sentinel_ne_nil b)
          rw [take_append_of_le_length hle, drop_append_of_le_length hle] at *
          rw [reads_some hx, if_neg (by push Not; exact hbad)]
          refine ih _ ?_ h rfl
          rw [length_drop, length_cons]
          omega
        · -- The first part ends within the sentinel: read alone, it holds none.
          have hin : ∀ y ∈ (x :: a ++ l).take (sentinel b).length, y.inside = false := by simpa using hbad.2
          have hall : ∀ y ∈ x :: a, y.inside = false := fun y hy => hin y <| by
            rw [take_append]
            exact mem_append_left _ (by rwa [take_of_length_le (le_of_lt hlt)])
          have hfree : ∀ i < (x :: a).length, next ((x :: a ++ []).drop i) = none := by
            intro i hi
            rw [next_eq_none, append_nil]
            intro b' h'
            rw [text, map_drop, ← text, htake] at h'
            rcases Nat.eq_zero_or_pos i with rfl | hpos
            · have hdec : ∀ b b', sentinel b' <+: sentinel b → b' = b := by decide
              obtain rfl := hdec b b' (h'.trans (List.take_prefix ..))
              have hle := h'.length_le
              rw [drop_zero, length_take] at hle
              omega
            · refine not_prefix_drop (b := b) (r := []) hpos (by omega) (h'.trans ?_)
              rw [append_nil]
              exact (List.take_prefix _ _).drop i
          refine ⟨st, ?_, .inr ⟨b, (x :: a).length, Nat.zero_lt_succ _, hlt, hbad.1, hrest, ?_, ?_⟩⟩
          · have := @reads_skip st _ [] hfree (.inr hall)
            rwa [append_nil, reads] at this
          · intro y hy
            refine hin y ?_
            rw [take_append]
            exact mem_append_right _ hy
          · rwa [drop_append, drop_of_length_le (le_of_lt hlt), nil_append] at h

end

end AiiOs.Untrusted
