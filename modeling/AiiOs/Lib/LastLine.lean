import AiiOs.Lib.Scan
import Mathlib.Data.List.TakeWhile

/-! The last line of a file that is being written: what follows the last newline, and
what a scan finds once more bytes have been added. -/

namespace Lib
open List Utf8

/-! ### Blank text -/

variable {codes : List Bytes} {b s s' : Bytes}

theorem dropCode_eq_none_iff : dropCode codes s = none ↔ ∀ c ∈ codes, ¬c <+: s := by
  induction codes with
  | nil => simp [dropCode]
  | cons c codes ih =>
    rw [dropCode]
    split_ifs with hp
    · simp [List.isPrefixOf_iff_prefix.mp hp]
    · rw [ih]
      have hp' : ¬c <+: s := fun h => hp (List.isPrefixOf_iff_prefix.mpr h)
      simp [hp']

theorem dropCode_eq_some (h : dropCode codes s = some s') : ∃ c ∈ codes, s = c ++ s' := by
  induction codes with
  | nil => simp [dropCode] at h
  | cons c codes ih =>
    rw [dropCode] at h
    split_ifs at h with hp
    · cases h
      obtain ⟨t, rfl⟩ := isPrefixOf_iff_prefix.mp hp
      exact ⟨c, mem_cons_self .., by simp⟩
    · obtain ⟨c', hc', hs⟩ := ih h
      exact ⟨c', mem_cons_of_mem _ hc', hs⟩

def PrefixFree (codes : List Bytes) : Prop := ∀ c ∈ codes, ∀ c' ∈ codes, c <+: c' → c = c'

theorem dropCode_append_some (hfree : PrefixFree codes) (h : dropCode codes s = some s') (x : Bytes) :
    dropCode codes (s ++ x) = some (s' ++ x) := by
  obtain ⟨c, hc, rfl⟩ := dropCode_eq_some h
  cases hd : dropCode codes (c ++ s' ++ x) with
  | none =>
    refine absurd ?_ (dropCode_eq_none_iff.mp hd c hc)
    rw [append_assoc]
    exact prefix_append ..
  | some r =>
    -- both codes begin the same string, so one begins the other
    obtain ⟨c', hc', heq⟩ := dropCode_eq_some hd
    have h1 : c <+: c' ++ r := by
      rw [← heq, append_assoc]
      exact prefix_append ..
    have hcc : c = c' := by
      rcases prefix_or_prefix_of_prefix h1 (prefix_append c' r) with h | h
      · exact hfree c hc c' hc' h
      · exact (hfree c' hc' c hc h).symm
    subst hcc
    rw [append_assoc, append_cancel_left_eq] at heq
    rw [heq]

theorem trimCodes_nil (hne : ∀ c ∈ codes, c ≠ []) (n : Nat) : trimCodes codes n [] = [] := by
  have hnone : dropCode codes [] = none := dropCode_eq_none_iff.mpr fun c hc hp => hne c hc (prefix_nil.mp hp)
  cases n with
  | zero => rfl
  | succ n => simp only [trimCodes, hnone]

variable {n max : Nat} {x : Bytes}

section
variable (hne : ∀ c ∈ codes, c ≠ [])
include hne

theorem trimCodes_fuel {m : Nat} (hm : s.length ≤ m) (hn : s.length ≤ n) :
    trimCodes codes m s = trimCodes codes n s := by
  induction m generalizing n s with
  | zero => rw [length_eq_zero_iff.mp (Nat.le_zero.mp hm), trimCodes_nil hne, trimCodes_nil hne]
  | succ m ih =>
    cases n with
    | zero => rw [length_eq_zero_iff.mp (Nat.le_zero.mp hn), trimCodes_nil hne, trimCodes_nil hne]
    | succ n =>
      rw [trimCodes, trimCodes]
      cases hd : dropCode codes s with
      | none => rfl
      | some s' =>
        have := dropCode_length hne hd
        exact ih (by omega) (by omega)

theorem trimLeft_some (h : dropCode codes s = some s') : trimLeft codes s = trimLeft codes s' := by
  have hlt := dropCode_length hne h
  obtain ⟨n, hn⟩ : ∃ n, s.length = n + 1 := ⟨s.length - 1, by omega⟩
  rw [trimLeft, hn, trimCodes, h]
  exact trimCodes_fuel hne (by omega) (le_refl _)

theorem trimLeft_append (hfree : PrefixFree codes) (hb : trimLeft codes b = [])
    (s : Bytes) : trimLeft codes (b ++ s) = trimLeft codes s := by
  induction hlen : b.length using Nat.strongRecOn generalizing b with
  | _ n ih =>
    cases hd : dropCode codes b with
    | none =>
      rw [trimLeft_of_none hd] at hb
      rw [hb, nil_append]
    | some b' =>
      rw [trimLeft_some hne hd] at hb
      rw [trimLeft_some hne (dropCode_append_some hfree hd s)]
      exact ih b'.length (hlen ▸ dropCode_length hne hd) hb rfl

theorem exists_code_of_trimRight {r : Bytes}
    (h : trimLeft (codes.map List.reverse) r = []) (hr : r ≠ []) : ∃ c ∈ codes, c <+: r.reverse := by
  have hne' : ∀ c ∈ codes.map .reverse, c ≠ [] :=
    List.forall_mem_map.mpr fun c hc h => hne c hc (reverse_eq_nil_iff.mp h)
  induction hlen : r.length using Nat.strongRecOn generalizing r with
  | _ n ih =>
    cases hd : dropCode (codes.map .reverse) r with
    | none =>
      rw [trimLeft_of_none hd] at h
      exact absurd h hr
    | some r' =>
      rw [trimLeft_some hne' hd] at h
      obtain ⟨_, hmem, rfl⟩ := dropCode_eq_some hd
      obtain ⟨c, hc, rfl⟩ := List.mem_map.mp hmem
      rw [reverse_append, reverse_reverse]
      by_cases hr' : r' = []
      · exact ⟨c, hc, by rw [hr']; exact prefix_rfl⟩
      · obtain ⟨c', hc', hp⟩ := ih r'.length (hlen ▸ dropCode_length hne' hd) h hr' rfl
        exact ⟨c', hc', hp.trans (prefix_append ..)⟩

end

theorem trimLeft_of_trimSpace (h : trimSpace b = []) : trimLeft spaceCodes b = [] := by
  have hcodes : ∀ c ∈ spaceCodes, c ≠ [] := by decide
  rw [trimSpace, reverse_eq_nil_iff] at h
  by_contra hne
  obtain ⟨c, hc, hp⟩ := exists_code_of_trimRight hcodes h (by simpa using hne)
  rw [reverse_reverse] at hp
  have hnone : dropCode spaceCodes (trimLeft spaceCodes b) = none := dropCode_trimCodes hcodes (le_refl _)
  exact dropCode_eq_none_iff.mp hnone c hc hp

theorem prefixFree_spaceCodes : PrefixFree spaceCodes := by
  unfold PrefixFree
  decide

def allSpace (s : Bytes) : Bool := (Utf8.runes s).all fun r => r.any (· ∈ spaceRunes)

theorem allSpace_iff : allSpace s ↔ ∃ cs, (∀ c ∈ cs, c ∈ spaceRunes) ∧ Utf8.encode cs = s := by
  unfold allSpace
  constructor
  · intro h
    have hall : ∀ rs : List (Option Char), (rs.all fun r => r.any (· ∈ spaceRunes)) →
        ∃ cs : List Char, (∀ c ∈ cs, c ∈ spaceRunes) ∧ rs = cs.map some := by
      intro rs
      induction rs with
      | nil => exact fun _ => ⟨[], by simp, rfl⟩
      | cons r rs ih =>
        intro h
        rw [all_cons, Bool.and_eq_true] at h
        obtain ⟨cs, hcs, rfl⟩ := ih h.2
        cases r with
        | none => cases h.1
        | some c => exact ⟨c :: cs, forall_mem_cons.mpr ⟨of_decide_eq_true h.1, hcs⟩, rfl⟩
    obtain ⟨cs, hcs, heq⟩ := hall _ h
    exact ⟨cs, hcs, encode_of_runesFuel (le_refl _) heq⟩
  · rintro ⟨cs, hcs, rfl⟩
    rw [runes_encode, List.all_map, List.all_eq_true]
    exact fun c hc => decide_eq_true (hcs c hc)

theorem allSpace_of_blank (h : trimSpace s = []) : allSpace s := by
  have hcodes : ∀ c ∈ spaceCodes, c ≠ [] := by decide
  rw [allSpace_iff]
  replace h := trimLeft_of_trimSpace h
  induction hlen : s.length using Nat.strongRecOn generalizing s with
  | _ n ih =>
    cases hd : dropCode spaceCodes s with
    | none =>
      rw [trimLeft_of_none hd] at h
      exact ⟨[], by simp, h.symm⟩
    | some s' =>
      rw [trimLeft_some hcodes hd] at h
      obtain ⟨cs, hcs, hs'⟩ := ih s'.length (hlen ▸ dropCode_length hcodes hd) h rfl
      obtain ⟨code, hcode, rfl⟩ := dropCode_eq_some hd
      obtain ⟨r, hr, rfl⟩ := List.mem_map.mp hcode
      refine ⟨r :: cs, forall_mem_cons.mpr ⟨hr, hcs⟩, ?_⟩
      rw [encode_cons, hs']

theorem blank_of_allSpace (h : allSpace s) : trimSpace s = [] := by
  have hcodes : ∀ c ∈ spaceCodes, c ≠ [] := by decide
  have hcode : ∀ c ∈ spaceRunes, dropCode spaceCodes (String.utf8EncodeChar c) = some [] :=
    @of_decide_eq_true _ (List.decidableBAll _ _) (by decide)
  have hnil : ∀ codes, trimLeft codes [] = [] := fun _ => rfl
  obtain ⟨cs, hcs, rfl⟩ := allSpace_iff.mp h
  have hleft : trimLeft spaceCodes (Utf8.encode cs) = [] := by
    clear h
    induction cs with
    | nil => rfl
    | cons c cs ih =>
      rw [forall_mem_cons] at hcs
      have hdrop := dropCode_append_some prefixFree_spaceCodes (hcode c hcs.1) (Utf8.encode cs)
      rw [encode_cons, trimLeft_some hcodes hdrop]
      exact ih hcs.2
  rw [trimSpace, hleft, reverse_nil, hnil, reverse_nil]

theorem not_allSpace_of_brace (h : 0x7B ∈ s) : allSpace s = false := by
  rw [Bool.eq_false_iff, Ne, allSpace_iff]
  rintro ⟨cs, hcs, rfl⟩
  have hne : '{' ∉ cs := fun hc => absurd (hcs _ hc) (by decide)
  exact notMem_encode (c := '{') (by decide) hne h

/-! ### The unfinished line -/

def openEnd (s : Bytes) : Bytes := (s.reverse.takeWhile (· ≠ newline)).reverse

def closedPart (s : Bytes) : Bytes := (s.reverse.dropWhile (· ≠ newline)).reverse

def Closed (s : Bytes) : Prop := s = [] ∨ s.getLast? = some newline

theorem closedPart_append_openEnd (s : Bytes) : closedPart s ++ openEnd s = s := by
  rw [closedPart, openEnd, ← reverse_append, takeWhile_append_dropWhile, reverse_reverse]

theorem take_closedPart (s : Bytes) : s.take (closedPart s).length = closedPart s :=
  (congrArg (List.take _) (closedPart_append_openEnd s).symm).trans take_left

theorem newline_notMem_openEnd (s : Bytes) : newline ∉ openEnd s := by
  intro h
  have := mem_takeWhile_imp (mem_reverse.mp h)
  simp at this

theorem closed_closedPart (s : Bytes) : Closed (closedPart s) := by
  unfold Closed closedPart
  cases h : s.reverse.dropWhile (· ≠ newline) with
  | nil => exact .inl rfl
  | cons b bs =>
    have := head?_dropWhile_not (fun b : UInt8 => decide (b ≠ newline)) s.reverse
    rw [h] at this
    simpa using this

theorem openEnd_append (s : Bytes) (hx : newline ∉ x) :
    openEnd (s ++ x) = openEnd s ++ x ∧ closedPart (s ++ x) = closedPart s := by
  have hall : ∀ b ∈ x.reverse, decide (b ≠ newline) := by
    intro b hb
    refine decide_eq_true fun h0 => hx ?_
    rw [← h0]
    exact mem_reverse.mp hb
  rw [openEnd, closedPart, reverse_append, takeWhile_append_of_pos hall,
    dropWhile_append_of_pos hall, reverse_append, reverse_reverse]
  exact ⟨rfl, rfl⟩

theorem openEnd_of_closed (h : Closed s) : openEnd s = [] ∧ closedPart s = s := by
  have hopen : openEnd s = [] := by
    rcases h with rfl | h
    · rfl
    · rw [← head?_reverse] at h
      rw [openEnd]
      cases hs : s.reverse with
      | nil => rfl
      | cons b bs =>
        rw [hs] at h
        cases h
        rfl
  have hs := closedPart_append_openEnd s
  rw [hopen, append_nil] at hs
  exact ⟨hopen, hs⟩

theorem splitLines_of_notMem (h : newline ∉ s) (hs : s ≠ []) : splitLines s = [s] := by
  induction s with
  | nil => exact absurd rfl hs
  | cons b bs ih =>
    rw [mem_cons, not_or] at h
    rw [splitLines, if_neg (Ne.symm h.1)]
    cases bs with
    | nil => rfl
    | cons c cs => rw [ih h.2 (by simp)]

theorem getLast?_of_closed (h : Closed s) {t : Bytes} (ht : t ∈ splitLines s) :
    t.getLast? = some newline := by
  induction s generalizing t with
  | nil => cases ht
  | cons b bs ih =>
    rw [splitLines] at ht
    by_cases hb : b = newline
    · rw [if_pos hb, mem_cons] at ht
      rcases ht with rfl | ht
      · rw [hb]
        rfl
      · cases bs with
        | nil => cases ht
        | cons c cs => exact ih (.inr (h.resolve_left (by simp))) ht
    · rw [if_neg hb] at ht
      cases bs with
      | nil => exact absurd (Option.some.inj (h.resolve_left (by simp))) hb
      | cons c cs =>
        have hclosed : Closed (c :: cs) := .inr (h.resolve_left (by simp))
        cases hs : splitLines (c :: cs) with
        | nil =>
          have := splitLines_flatten (c :: cs)
          rw [hs] at this
          cases this
        | cons t' ts =>
          rw [hs] at ht ih
          rcases mem_cons.mp ht with rfl | ht
          · have ht' := ih hclosed (mem_cons_self ..)
            rw [getLast?_cons, ht']
            rfl
          · exact ih hclosed (mem_cons_of_mem _ ht)

theorem splitLines_openEnd (s : Bytes) :
    splitLines s = splitLines (closedPart s) ++ (if openEnd s = [] then [] else [openEnd s]) := by
  conv_lhs => rw [← closedPart_append_openEnd s]
  rw [splitLines_append (closed_closedPart s)]
  split_ifs with h
  · rw [h]
    rfl
  · rw [splitLines_of_notMem (newline_notMem_openEnd s) h]

theorem splitLines_finish (s : Bytes) (hx : newline ∉ x) : splitLines (s ++ (x ++ [newline])) =
      splitLines (closedPart s) ++ [openEnd s ++ (x ++ [newline])] := by
  conv_lhs => rw [← closedPart_append_openEnd s, append_assoc]
  rw [splitLines_append (closed_closedPart s), ← append_assoc (openEnd s)]
  have hmem : newline ∉ openEnd s ++ x := by
    rw [mem_append, not_or]
    exact ⟨newline_notMem_openEnd s, hx⟩
  rw [splitLines_line hmem []]
  rfl

/-! ### Blank text in front of a line -/

theorem trimSpace_append (h : trimSpace b = []) (s : Bytes) : trimSpace (b ++ s) = trimSpace s := by
  rw [trimSpace, trimSpace, trimLeft_append (by decide) prefixFree_spaceCodes (trimLeft_of_trimSpace h)]

/-! ### What the scan finds -/

theorem scanTokens_fits {ts : List Bytes} {o : Nat} :
    (scanTokens max ts o n).2 = false ↔ ∀ t ∈ ts, fits max t := by
  induction ts generalizing o n with
  | nil => simp [scanTokens]
  | cons t ts ih =>
    rw [scanTokens]
    split_ifs with hf hblank
    · simp [ih, hf]
    · simp [ih, hf]
    · simp [hf]

theorem scan_fits : (scan max s).2 = false ↔ ∀ t ∈ splitLines s, fits max t := scanTokens_fits

end Lib
