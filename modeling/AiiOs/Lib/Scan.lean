import AiiOs.Lib.Utf8

/-! Lines as a Go reader takes them: `bytes.TrimSpace`, a `bufio.Scanner` whose
tokens keep their newline and whose buffer has a largest size. -/

namespace Lib
open List

/-! ### TrimSpace -/

/-- The runes of `unicode.IsSpace`. -/
def spaceRunes : List Char := ['\t', '\n', '\x0b', '\x0c', '\r', ' '] ++
    [0x85, 0xA0, 0x1680, 0x2000, 0x2001, 0x2002, 0x2003, 0x2004, 0x2005, 0x2006, 0x2007, 0x2008,
      0x2009, 0x200A, 0x2028, 0x2029, 0x202F, 0x205F, 0x3000].map Char.ofNat

def spaceCodes : List Bytes := spaceRunes.map String.utf8EncodeChar

def dropCode : List Bytes → Bytes → Option Bytes
  | [], _ => none
  | c :: cs, s => if c.isPrefixOf s then some (s.drop c.length) else dropCode cs s

def trimCodes (codes : List Bytes) : Nat → Bytes → Bytes
  | 0, s => s
  | n + 1, s =>
    match dropCode codes s with
    | some s' => trimCodes codes n s'
    | none => s

def trimLeft (codes : List Bytes) (s : Bytes) : Bytes := trimCodes codes s.length s

def trimSpace (s : Bytes) : Bytes :=
  (trimLeft (spaceCodes.map List.reverse) (trimLeft spaceCodes s).reverse).reverse

/-! ### Lines -/

def newline : UInt8 := 10

def splitLines : Bytes → List Bytes
  | [] => []
  | b :: bs =>
    if b = newline then [b] :: splitLines bs
    else
      match splitLines bs with
      | [] => [[b]]
      | t :: ts => (b :: t) :: ts

/-- A line that is not blank, trimmed, with its place in the file. -/
structure Line where
  text : Bytes
  offset : Nat
  size : Nat
  number : Nat
  deriving DecidableEq, Repr

/-- A token is found once its newline is in the buffer; the last one needs room
to meet the end of the file. -/
def fits (max : Nat) (tok : Bytes) : Bool :=
  if tok.getLast? = some newline then tok.length ≤ max else tok.length < max

def scanTokens (max : Nat) : List Bytes → Nat → Nat → List Line × Bool
  | [], _, _ => ([], false)
  | t :: ts, offset, number =>
    if fits max t then
      let p := scanTokens max ts (offset + t.length) (number + 1)
      if trimSpace t = [] then p
      else (⟨trimSpace t, offset, t.length, number + 1⟩ :: p.1, p.2)
    else ([], true)

def scan (max : Nat) (s : Bytes) : List Line × Bool := scanTokens max (splitLines s) 0 0

/-! ### Facts about lines -/

theorem splitLines_flatten (s : Bytes) : (splitLines s).flatten = s := by
  induction s with
  | nil => rfl
  | cons b bs ih =>
    rw [splitLines]
    split_ifs
    · rw [flatten_cons, ih]; rfl
    · cases h : splitLines bs with
      | nil => rw [h] at ih; rw [← ih]; rfl
      | cons t ts => rw [h] at ih; rw [← ih]; rfl

theorem splitLines_line {l : Bytes} (h : newline ∉ l) (rest : Bytes) :
    splitLines (l ++ newline :: rest) = (l ++ [newline]) :: splitLines rest := by
  induction l with
  | nil => rw [nil_append]; rfl
  | cons b l ih =>
    rw [mem_cons, not_or] at h
    rw [cons_append, splitLines, if_neg (Ne.symm h.1), ih h.2]
    rfl

theorem splitLines_append {a : Bytes} (h : a = [] ∨ a.getLast? = some newline) (b : Bytes) :
    splitLines (a ++ b) = splitLines a ++ splitLines b := by
  induction a with
  | nil => rfl
  | cons c a ih =>
    rw [cons_append, splitLines, splitLines]
    by_cases ha : a = []
    · subst ha
      have hc : c = newline := by simpa using h
      simp [hc, splitLines]
    · have hlast : a.getLast? = some newline := by
        have := h.resolve_left (by simp)
        rwa [getLast?_cons_of_ne_nil ha] at this
      rw [ih (.inr hlast)]
      split_ifs
      · rfl
      · cases hs : splitLines a with
        | nil =>
          have := splitLines_flatten a
          rw [hs] at this
          exact absurd this.symm ha
        | cons t ts => rfl

variable {s tok : Bytes} {codes xs : List Bytes} {max n : Nat}

theorem splitLines_ne_nil {t : Bytes} (h : t ∈ splitLines s) : t ≠ [] := by
  induction s generalizing t with
  | nil => simp [splitLines] at h
  | cons b bs ih =>
    rw [splitLines] at h
    split_ifs at h
    · rcases mem_cons.mp h with rfl | h
      · simp
      · exact ih h
    · cases hs : splitLines bs with
      | nil => rw [hs] at h; simp only [mem_singleton] at h; simp [h]
      | cons u us =>
        rw [hs] at h ih
        rcases mem_cons.mp h with rfl | h
        · simp
        · exact ih (mem_cons_of_mem _ h)

/-! ### Facts about trimming -/

theorem dropCode_length (hne : ∀ c ∈ codes, c ≠ []) {s' : Bytes} (h : dropCode codes s = some s') :
    s'.length < s.length := by
  induction codes with
  | nil => simp [dropCode] at h
  | cons c codes ih =>
    rw [forall_mem_cons] at hne
    rw [dropCode] at h
    split_ifs at h with hp
    · cases h
      have hle := (List.isPrefixOf_iff_prefix.mp hp).length_le
      have hpos := length_pos_iff.mpr hne.1
      rw [length_drop]
      omega
    · exact ih hne.2 h

theorem dropCode_trimCodes (hne : ∀ c ∈ codes, c ≠ []) (hn : s.length ≤ n) :
    dropCode codes (trimCodes codes n s) = none := by
  induction n generalizing s with
  | zero =>
    rw [trimCodes]
    cases h : dropCode codes s with
    | none => rfl
    | some s' =>
      have := dropCode_length hne h
      omega
  | succ n ih =>
    rw [trimCodes]
    cases h : dropCode codes s with
    | none => exact h
    | some s' =>
      have := dropCode_length hne h
      exact ih (by omega)

theorem trimLeft_of_none (h : dropCode codes s = none) : trimLeft codes s = s := by
  rw [trimLeft]
  cases s with
  | nil => rfl
  | cons b s => rw [length_cons, trimCodes, h]

theorem dropCode_of_head {b : UInt8} (h : ∀ c ∈ codes, c ≠ [] ∧ c.head? ≠ some b) (s : Bytes) :
    dropCode codes (b :: s) = none := by
  induction codes with
  | nil => rfl
  | cons c codes ih =>
    rw [forall_mem_cons] at h
    rw [dropCode, if_neg, ih h.2]
    intro hp
    obtain ⟨t, ht⟩ := isPrefixOf_iff_prefix.mp hp
    cases c with
    | nil => exact h.1.1 rfl
    | cons a c =>
      cases ht
      exact h.1.2 rfl

theorem dropCode_append (t : Bytes) (h : dropCode codes (s ++ t) = none) : dropCode codes s = none := by
  induction codes with
  | nil => rfl
  | cons c codes ih =>
    rw [dropCode] at h ⊢
    split_ifs at h with hp
    rw [if_neg, ih h]
    intro hs
    have := (List.isPrefixOf_iff_prefix.mp hs).trans (prefix_append s t)
    exact hp (List.isPrefixOf_iff_prefix.mpr this)

theorem trimCodes_suffix (codes : List Bytes) (n : Nat) (s : Bytes) : trimCodes codes n s <:+ s := by
  induction n generalizing s with
  | zero => exact suffix_refl s
  | succ n ih =>
    rw [trimCodes]
    cases h : dropCode codes s with
    | none => exact suffix_refl s
    | some s' =>
      refine (ih s').trans ?_
      clear ih
      induction codes with
      | nil => simp [dropCode] at h
      | cons c codes ihc =>
        rw [dropCode] at h
        split_ifs at h
        · cases h
          exact drop_suffix _ _
        · exact ihc h

/-- No space stands at either end of a string. -/
def Trimmed (s : Bytes) : Prop :=
  dropCode spaceCodes s = none ∧ dropCode (spaceCodes.map List.reverse) s.reverse = none

theorem trimmed_trimSpace (s : Bytes) : Trimmed (trimSpace s) := by
  have hcodes : ∀ c ∈ spaceCodes, c ≠ [] := by decide
  have hrev : ∀ c ∈ spaceCodes.map .reverse, c ≠ [] := by decide
  constructor
  · obtain ⟨t, ht⟩ := trimCodes_suffix (spaceCodes.map .reverse) (trimLeft spaceCodes s).reverse.length
      (trimLeft spaceCodes s).reverse
    refine dropCode_append t.reverse ?_
    rw [trimSpace, trimLeft, ← reverse_append, ht, reverse_reverse]
    exact dropCode_trimCodes hcodes (le_refl _)
  · rw [trimSpace, reverse_reverse]
    exact dropCode_trimCodes hrev (le_refl _)

theorem trimmed_braces (m : Bytes) : Trimmed (0x7B :: (m ++ [0x7D])) := by
  refine ⟨dropCode_of_head (by decide) _, ?_⟩
  rw [reverse_cons, reverse_append]
  exact dropCode_of_head (by decide) _

theorem dropCode_newline (s : Bytes) : dropCode (spaceCodes.map List.reverse) (newline :: s) = some s := rfl

theorem trimSpace_braces (m : Bytes) :
    trimSpace (0x7B :: (m ++ [0x7D]) ++ [newline]) = 0x7B :: (m ++ [0x7D]) := by
  have hleft : trimLeft spaceCodes (0x7B :: (m ++ [0x7D]) ++ [newline]) =
      0x7B :: (m ++ [0x7D]) ++ [newline] := trimLeft_of_none (dropCode_of_head (by decide) _)
  have hcons : (0x7B :: (m ++ [0x7D]) ++ [newline]).reverse =
    newline :: (0x7B :: (m ++ [0x7D])).reverse := by simp
  rw [trimSpace, hleft, hcons, trimLeft, length_cons, trimCodes, dropCode_newline]
  have htrim := trimLeft_of_none (trimmed_braces m).2
  rw [trimLeft] at htrim
  simp only [htrim, reverse_reverse]

/-! ### Facts about scanned lines -/

theorem splitLines_rest {rest : List Bytes} (h : splitLines s = tok :: rest) :
    splitLines rest.flatten = rest := by
  induction s generalizing tok rest with
  | nil => cases h
  | cons b bs ih =>
    rw [splitLines] at h
    split_ifs at h
    · cases h
      rw [splitLines_flatten]
    · cases hs : splitLines bs with
      | nil =>
        rw [hs] at h
        cases h
        rfl
      | cons t ts =>
        rw [hs] at h
        cases h
        exact ih hs

theorem splitLines_drop {a b : List Bytes} (h : splitLines s = a ++ b) : splitLines b.flatten = b := by
  induction a generalizing s with
  | nil =>
    rw [nil_append] at h
    rw [← h, splitLines_flatten]
  | cons t a ih => exact ih (splitLines_rest h)

theorem newline_notMem_dropLast (h : tok ∈ splitLines s) : newline ∉ tok.dropLast := by
  induction s generalizing tok with
  | nil => simp [splitLines] at h
  | cons b bs ih =>
    rw [splitLines] at h
    split_ifs at h with hb
    · rcases mem_cons.mp h with rfl | h
      · simp
      · exact ih h
    · cases hs : splitLines bs with
      | nil =>
        rw [hs, mem_singleton] at h
        simp [h]
      | cons t ts =>
        rw [hs] at h ih
        rcases mem_cons.mp h with rfl | h
        · have ht := ih (mem_cons_self ..)
          have hne : t ≠ [] := splitLines_ne_nil (s := bs) (hs ▸ mem_cons_self ..)
          rw [dropLast_cons_of_ne_nil hne, mem_cons, not_or]
          exact ⟨fun h => hb h.symm, ht⟩
        · exact ih (mem_cons_of_mem _ h)

theorem scanTokens_split {max : Nat} {ts : List Bytes} {o n : Nat} {pre post : List Line} {l : Line}
    {long : Bool} (h : scanTokens max ts o n = (pre ++ l :: post, long)) :
    ∃ ts₁ tok ts₂, ts = ts₁ ++ tok :: ts₂ ∧ l.text = trimSpace tok ∧
      l.offset + l.size = o + (ts₁ ++ [tok]).flatten.length ∧ fits max tok ∧
      scanTokens max ts₂ (l.offset + l.size) l.number = (post, long) := by
  induction ts generalizing o n pre with
  | nil => simp [scanTokens] at h
  | cons t ts ih =>
    rw [scanTokens] at h
    split_ifs at h with hf hblank
    · obtain ⟨ts₁, tok, ts₂, rfl, htext, hoff, hrest⟩ := ih h
      refine ⟨t :: ts₁, tok, ts₂, rfl, htext, ?_, hrest⟩
      rw [hoff]
      simp [add_assoc]
    · cases pre with
      | nil =>
        obtain ⟨hl, hlong⟩ := Prod.mk.inj h
        obtain ⟨rfl, hpost⟩ := List.cons.inj hl
        exact ⟨[], t, ts, rfl, rfl, by simp, hf, Prod.ext hpost hlong⟩
      | cons l' pre =>
        obtain ⟨hl, hlong⟩ := Prod.mk.inj h
        obtain ⟨rfl, hpost⟩ := List.cons.inj hl
        obtain ⟨ts₁, tok, ts₂, rfl, htext, hoff, hrest⟩ := ih (Prod.ext hpost hlong)
        refine ⟨t :: ts₁, tok, ts₂, rfl, htext, ?_, hrest⟩
        rw [hoff]
        simp [add_assoc]
    · simp at h

theorem scanTokens_shift (max : Nat) (ts : List Bytes) (o n o' n' : Nat) :
    (scanTokens max ts o n).1.map Line.text = (scanTokens max ts o' n').1.map Line.text ∧
      (scanTokens max ts o n).2 = (scanTokens max ts o' n').2 := by
  induction ts generalizing o n o' n' with
  | nil => exact ⟨rfl, rfl⟩
  | cons t ts ih =>
    obtain ⟨htext, hlong⟩ := ih (o + t.length) (n + 1) (o' + t.length) (n' + 1)
    rw [scanTokens, scanTokens]
    split_ifs
    · exact ⟨htext, hlong⟩
    · exact ⟨congrArg (trimSpace t :: ·) htext, hlong⟩
    · exact ⟨rfl, rfl⟩

variable {l : Line} {pre post : List Line} {long : Bool} {ts : List Bytes} {o : Nat}

theorem drop_line (h : scan max s = (pre ++ l :: post, long)) :
    ∃ ts₁ ts₂, splitLines s = ts₁ ++ ts₂ ∧ splitLines (s.drop (l.offset + l.size)) = ts₂ ∧
      scanTokens max ts₂ (l.offset + l.size) l.number = (post, long) := by
  obtain ⟨ts₁, tok, ts₂, hts, -, hoff, -, hrest⟩ := scanTokens_split h
  have hs : s = (ts₁ ++ [tok]).flatten ++ ts₂.flatten := by
    rw [← flatten_append, ← append_cons, ← hts, splitLines_flatten]
  have hdrop : s.drop (l.offset + l.size) = ts₂.flatten := by rw [hoff, zero_add, hs, drop_left]
  have hsplit := hts.trans (append_cons ..)
  exact ⟨ts₁ ++ [tok], ts₂, hsplit, by rw [hdrop, splitLines_drop hsplit], hrest⟩

theorem scan_drop (h : scan max s = (pre ++ l :: post, long)) :
    (scan max (s.drop (l.offset + l.size))).1.map Line.text = post.map Line.text ∧
      (scan max (s.drop (l.offset + l.size))).2 = long := by
  obtain ⟨ts₁, ts₂, -, hsplit, hrest⟩ := drop_line h
  have hshift := scanTokens_shift max ts₂ 0 0 (l.offset + l.size) l.number
  rw [hrest] at hshift
  rw [scan, hsplit]
  exact hshift

theorem trimCodes_length_le (codes : List Bytes) (n : Nat) (s : Bytes) :
    (trimCodes codes n s).length ≤ s.length := (trimCodes_suffix codes n s).length_le

theorem trimSpace_length_le (s : Bytes) : (trimSpace s).length ≤ s.length := by
  have hright := trimCodes_length_le (spaceCodes.map .reverse)
    (trimLeft spaceCodes s).reverse.length (trimLeft spaceCodes s).reverse
  have hleft := trimCodes_length_le spaceCodes s.length s
  rw [length_reverse] at hright
  rw [trimSpace, length_reverse, trimLeft, length_reverse]
  exact le_trans hright hleft

theorem trimSpace_length_lt (h : s.getLast? = some newline) : (trimSpace s).length < s.length := by
  have hs : 0 < s.length := by
    cases s with
    | nil => cases h
    | cons b s => exact Nat.succ_pos _
  obtain ⟨t, ht⟩ := trimCodes_suffix spaceCodes s.length s
  rw [trimSpace, trimLeft, trimLeft]
  generalize trimCodes spaceCodes s.length s = u at ht
  rcases eq_nil_or_concat u with rfl | ⟨v, b, rfl⟩
  · exact hs
  · have hb : b = newline := by
      rw [← ht, concat_eq_append, ← append_assoc, getLast?_concat] at h
      exact Option.some.inj h
    subst hb
    have hle := congrArg List.length ht
    have hright := trimCodes_length_le (spaceCodes.map .reverse) v.length v.reverse
    rw [concat_eq_append, reverse_concat, length_cons, trimCodes, dropCode_newline]
    simp only [length_append, length_concat, length_reverse] at hle hright ⊢
    omega

theorem fits_trimSpace (h : fits max tok) : (trimSpace tok).length + 1 ≤ max := by
  rw [fits] at h
  split_ifs at h with hlast
  · exact lt_of_lt_of_le (trimSpace_length_lt hlast) (by simpa using h)
  · have := trimSpace_length_le tok
    have : tok.length < max := by simpa using h
    omega

/-! ### Lines as they are written -/

/-- A text that is read back from its line. -/
structure Writable (max : Nat) (x : Bytes) : Prop where
  noNewline : newline ∉ x
  trimmed : trimSpace (x ++ [newline]) = x
  ne : x ≠ []
  room : x.length + 1 ≤ max

def writeLines (xs : List Bytes) : Bytes := xs.flatMap fun x => x ++ [newline]

theorem splitLines_writeLines (h : ∀ x ∈ xs, newline ∉ x) :
    splitLines (writeLines xs) = xs.map fun x => x ++ [newline] := by
  induction xs with
  | nil => rfl
  | cons x xs ih =>
    rw [forall_mem_cons] at h
    rw [writeLines, flatMap_cons, append_assoc, singleton_append, splitLines_line h.1, map_cons, ← ih h.2]
    rfl

theorem scanTokens_writeLines (h : ∀ x ∈ xs, Writable max x) (o n : Nat) :
    (scanTokens max (xs.map fun x => x ++ [newline]) o n).1.map Line.text = xs ∧
      (scanTokens max (xs.map fun x => x ++ [newline]) o n).2 = false := by
  induction xs generalizing o n with
  | nil => exact ⟨rfl, rfl⟩
  | cons x xs ih =>
    rw [forall_mem_cons] at h
    obtain ⟨htext, hlong⟩ := ih h.2 (o + (x ++ [newline]).length) (n + 1)
    have hfits : fits max (x ++ [newline]) := by
      rw [fits]
      simpa using h.1.room
    have hne : trimSpace (x ++ [newline]) ≠ [] := h.1.trimmed.symm ▸ h.1.ne
    rw [map_cons, scanTokens, if_pos hfits]
    rw [if_neg hne, map_cons, htext, h.1.trimmed]
    exact ⟨rfl, hlong⟩

theorem scan_writeLines (h : ∀ x ∈ xs, Writable max x) :
    (scan max (writeLines xs)).1.map Line.text = xs ∧ (scan max (writeLines xs)).2 = false := by
  rw [scan, splitLines_writeLines fun x hx => (h x hx).noNewline]
  exact scanTokens_writeLines h 0 0

theorem scanTokens_texts (h : (scanTokens max ts o n).2 = false) :
    (scanTokens max ts o n).1.map Line.text = (ts.filter fun t => trimSpace t ≠ []).map trimSpace := by
  induction ts generalizing o n with
  | nil => rfl
  | cons t ts ih =>
    rw [scanTokens] at h ⊢
    split_ifs at h ⊢ with hf hblank
    · rw [ih h, filter_cons_of_neg (by simpa using hblank)]
    · rw [map_cons, ih h, filter_cons_of_pos (by simpa using hblank), map_cons]

theorem scan_texts (h : (scan max s).2 = false) : (scan max s).1.map Line.text =
      ((splitLines s).filter fun t => trimSpace t ≠ []).map trimSpace := scanTokens_texts h

theorem scanTokens_head {x : Line} (h : (scanTokens max ts o n).1.head? = some x) :
    ∃ p, (ts.filter fun t => trimSpace t ≠ []).head? = some p ∧ x.text = trimSpace p := by
  induction ts generalizing o n with
  | nil => cases h
  | cons t ts ih =>
    rw [scanTokens] at h
    split_ifs at h with hf hblank
    · rw [filter_cons_of_neg (by simpa using hblank)]
      exact ih h
    · rw [filter_cons_of_pos (by simpa using hblank)]
      cases h
      exact ⟨t, rfl, rfl⟩
    · cases h

theorem scan_line (h : l ∈ (scan max s).1) : ∃ tok ∈ splitLines s, l.text = trimSpace tok ∧ fits max tok := by
  obtain ⟨pre, post, hl⟩ := append_of_mem h
  obtain ⟨ts₁, tok, ts₂, hts, htext, -, hfits, -⟩ :=
    @scanTokens_split max (splitLines s) 0 0 pre post l (scan max s).2 (Prod.ext hl rfl)
  exact ⟨tok, hts ▸ mem_append_right _ (mem_cons_self ..), htext, hfits⟩

theorem trimSpace_infix (s : Bytes) : trimSpace s <:+: s := by
  obtain ⟨a, ha⟩ := trimCodes_suffix spaceCodes s.length s
  obtain ⟨b, hb⟩ := trimCodes_suffix (spaceCodes.map .reverse) (trimLeft spaceCodes s).reverse.length
    (trimLeft spaceCodes s).reverse
  refine ⟨a, b.reverse, ?_⟩
  rw [trimSpace, append_assoc, trimLeft, ← reverse_append, hb, reverse_reverse]
  exact ha

theorem writable_of_line (h : l ∈ (scan max s).1) {m : Bytes}
    (hm : l.text = 0x7B :: (m ++ [0x7D])) : Writable max l.text := by
  obtain ⟨tok, htok, htext, hfits⟩ := scan_line h
  refine ⟨?_, by rw [hm, trimSpace_braces], by simp [hm], htext ▸ fits_trimSpace hfits⟩
  intro hmem
  obtain ⟨a, b, hab⟩ := trimSpace_infix tok
  rw [← htext] at hab
  have hdrop := newline_notMem_dropLast htok
  rcases eq_nil_or_concat b with rfl | ⟨b', c, rfl⟩
  · -- the text ends the token, and it does not end in a newline
    rw [hm] at hmem hab
    rw [← hab, append_nil, ← cons_append, ← append_assoc, dropLast_concat] at hdrop
    rw [← cons_append] at hmem
    rcases mem_append.mp hmem with hmem | hmem
    · exact hdrop (mem_append_right _ hmem)
    · exact absurd (mem_singleton.mp hmem) (by decide)
  · rw [← hab, concat_eq_append, ← append_assoc, dropLast_concat] at hdrop
    exact hdrop (mem_append_left _ (mem_append_right _ hmem))

end Lib
