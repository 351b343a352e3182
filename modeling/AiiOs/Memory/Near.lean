import AiiOs.Lib.EditScript
import AiiOs.Lib.Utf8
import Mathlib.Data.List.GetD
import Mathlib.Data.Rat.Defs

/-! internal/memory, recall.go and trigram.go: `Edits`, the number of edits between two
words, and `nearByEdits`, which finds words in a text though they are misspelt. A string
is the list of its runes; a score is kept exact. -/

namespace AiiOs.Memory
open Lib List

/-! ### Edits -/

def entry (d : List (List Nat)) (i j : Nat) : Nat := (d.getD i []).getD j 0

/-- `d[i][j]` without a swap, with the rows before row `i` in `d` and the cells before it in `cur`. -/
def unswapped (ra rb : List Char) (d : List (List Nat)) (cur : List Nat) (i j : Nat) : Nat :=
  let cost := if ra[i - 1]? = rb[j - 1]? then 0 else 1
  min (min (entry d (i - 1) j + 1) (cur.getD (j - 1) 0 + 1)) (entry d (i - 1) (j - 1) + cost)

def cell (ra rb : List Char) (d : List (List Nat)) (cur : List Nat) (i j : Nat) : Nat :=
  if 1 < i ∧ 1 < j ∧ ra[i - 1]? = rb[j - 2]? ∧ ra[i - 2]? = rb[j - 1]? then
    min (unswapped ra rb d cur i j) (entry d (i - 2) (j - 2) + 1)
  else unswapped ra rb d cur i j

/-- Row `i` after so many rounds of the inner loop. -/
def row (ra rb : List Char) (d : List (List Nat)) (i : Nat) : Nat → List Nat
  | 0 => [i]
  | j + 1 =>
    let cur := row ra rb d i j
    cur ++ [cell ra rb d cur i (j + 1)]

/-- The rows after so many rounds of the outer loop. -/
def rows (ra rb : List Char) : Nat → List (List Nat)
  | 0 => [List.range (rb.length + 1)]
  | i + 1 =>
    let d := rows ra rb i
    d ++ [row ra rb d (i + 1) rb.length]

def edits (ra rb : List Char) : Nat := if ra = [] then rb.length
  else if rb = [] then ra.length
  else entry (rows ra rb ra.length) ra.length rb.length

variable {ra rb : List Char} {d : List (List Nat)} {cur : List Nat} {i j k : Nat}

/-- The cells of row `i` up to `k` are the least numbers of edits between prefixes. -/
structure RowLeast (ra rb : List Char) (i : Nat) (cur : List Nat) (k : Nat) : Prop where
  length : cur.length = k + 1
  least : ∀ j ≤ k, LeastEdits (ra.take i) (rb.take j) (cur.getD j 0)

structure RowsLeast (ra rb : List Char) (d : List (List Nat)) (i : Nat) : Prop where
  length : d.length = i + 1
  least : ∀ k ≤ i, RowLeast ra rb k (d.getD k []) rb.length

theorem RowsLeast.entry (h : RowsLeast ra rb d i) (hk : k ≤ i) (hj : j ≤ rb.length) :
    LeastEdits (ra.take k) (rb.take j) (entry d k j) := (h.least k hk).least j hj

theorem take_eq_concat {l us : List Char} {c : Char} (hi : i ≤ l.length) (h : l.take i = us ++ [c]) :
    ∃ k, i = k + 1 ∧ us = l.take k ∧ l[k]? = some c := by
  cases i with
  | zero => simp at h
  | succ k =>
    rw [take_succ_eq_append_getElem hi, append_singleton_inj] at h
    exact ⟨k, rfl, h.1.symm, by rw [getElem?_eq_getElem hi, h.2]⟩

theorem take_succ_of_getElem? {l : List Char} {c : Char} (h : l[k]? = some c) :
    l.take (k + 1) = l.take k ++ [c] := by
  rw [take_add_one, h, Option.toList_some]

section
variable (hd : RowsLeast ra rb d i) (hcur : RowLeast ra rb (i + 1) cur j) {a b : Char}
  (ha : ra[i]? = some a) (hb : rb[j]? = some b)
include hd hcur ha hb

theorem unswapped_script : EditScript (ra.take i ++ [a]) (rb.take j ++ [b])
    (unswapped ra rb d cur (i + 1) (j + 1)) := by
  have hj := (List.getElem?_eq_some_iff.mp hb).1
  have hdelete := (hd.entry le_rfl hj).1
  have hinsert := (hcur.least j le_rfl).1
  have hkeep := (hd.entry le_rfl hj.le).1
  rw [take_succ_of_getElem? hb] at hdelete
  rw [take_succ_of_getElem? ha] at hinsert
  have hkept : EditScript (ra.take i ++ [a]) (rb.take j ++ [b])
      (entry d i j + if ra[i]? = rb[j]? then 0 else 1) := by
    rw [ha, hb]
    split_ifs with heq
    · rw [Option.some_inj.mp heq]
      exact hkeep.keep _
    · exact hkeep.replace _ _
  exact ((hdelete.delete a).fewer (hinsert.insert b)).fewer hkept

theorem cell_script :
    EditScript (ra.take i ++ [a]) (rb.take j ++ [b]) (cell ra rb d cur (i + 1) (j + 1)) := by
  have hj := (List.getElem?_eq_some_iff.mp hb).1
  have hscript := unswapped_script hd hcur ha hb
  rw [cell]
  split_ifs with hswap
  · obtain ⟨hi', hj', hab, hba⟩ := hswap
    refine hscript.fewer ?_
    obtain ⟨k, rfl⟩ := Nat.exists_eq_add_one.mpr (Nat.lt_of_succ_lt_succ hi')
    obtain ⟨l, rfl⟩ := Nat.exists_eq_add_one.mpr (Nat.lt_of_succ_lt_succ hj')
    have hk : ra[k]? = some b := hba.trans hb
    have hl : rb[l]? = some a := hab.symm.trans ha
    rw [take_succ_of_getElem? hk, take_succ_of_getElem? hl]
    exact (hd.entry (Nat.le_succ k) (Nat.le_of_succ_le hj.le)).1.swap b a
  · exact hscript

theorem cell_least : LeastEdits (ra.take i ++ [a]) (rb.take j ++ [b]) (cell ra rb d cur (i + 1) (j + 1)) := by
  have hi := (List.getElem?_eq_some_iff.mp ha).1.le
  have hj := (List.getElem?_eq_some_iff.mp hb).1
  have hle : cell ra rb d cur (i + 1) (j + 1) ≤ unswapped ra rb d cur (i + 1) (j + 1) := by
    rw [cell]
    split_ifs
    · exact min_le_left _ _
    · exact le_rfl
  have hdelete := (hd.entry le_rfl hj).2
  have hinsert := (hcur.least j le_rfl).2
  have hkeep := (hd.entry le_rfl hj.le).2
  rw [take_succ_of_getElem? hb] at hdelete
  rw [take_succ_of_getElem? ha] at hinsert
  simp only [unswapped, Nat.add_sub_cancel, ha, hb, Option.some_inj, le_min_iff] at hle
  obtain ⟨⟨hle₁, hle₂⟩, hle₃⟩ := hle
  refine leastEdits_concat (cell_script hd hcur ha hb) (fun m hm => ?_) (fun m hm => ?_) (fun heq m hm => ?_)
    (fun hne m hm => ?_) fun us vs m hus hvs hm => ?_
  · exact hle₁.trans (Nat.succ_le_succ (hdelete hm))
  · exact hle₂.trans (Nat.succ_le_succ (hinsert hm))
  · rw [if_pos heq] at hle₃
    exact hle₃.trans (hkeep hm)
  · rw [if_neg hne] at hle₃
    exact hle₃.trans (Nat.succ_le_succ (hkeep hm))
  · obtain ⟨k, rfl, rfl, hk⟩ := take_eq_concat hi hus
    obtain ⟨l, rfl, rfl, hl⟩ := take_eq_concat hj.le hvs
    have hswap : cell ra rb d cur (k + 1 + 1) (l + 1 + 1) =
        min (unswapped ra rb d cur (k + 1 + 1) (l + 1 + 1)) (entry d k l + 1) :=
      if_pos ⟨by omega, by omega, ha.trans hl.symm, hk.trans hb.symm⟩
    rw [hswap]
    refine (min_le_right _ _).trans (Nat.succ_le_succ ?_)
    exact (hd.entry (Nat.le_succ k) (Nat.le_of_succ_le hj.le)).2 hm

end

variable {β : Type} {tw : List Char}

/-- What holds of every place of a list holds when it grows by one that has it. -/
theorem getD_concat {P : Nat → β → Prop} {l : List β} {x e : β} (hl : l.length = k + 1)
    (h : ∀ j ≤ k, P j (l.getD j e)) (hx : P (k + 1) x) : ∀ j ≤ k + 1, P j ((l ++ [x]).getD j e) := by
  intro j hj
  rcases lt_or_eq_of_le hj with hj | rfl
  · rw [getD_append _ _ _ _ (hl ▸ hj)]
    exact h j (Nat.le_of_lt_succ hj)
  · rwa [getD_append_right _ _ _ _ hl.le, hl, Nat.sub_self, getD_cons_zero]

theorem row_least (hd : RowsLeast ra rb d i) (hi : i < ra.length) (hj : j ≤ rb.length) :
    RowLeast ra rb (i + 1) (row ra rb d (i + 1) j) j := by
  induction j with
  | zero =>
    refine ⟨rfl, fun j hj => ?_⟩
    cases Nat.le_zero.mp hj
    have hleast := leastEdits_nil_right (ra.take (i + 1))
    rwa [length_take_of_le hi] at hleast
  | succ j ih =>
    have hcur := ih (Nat.le_of_succ_le hj)
    refine ⟨by simp [row, hcur.length], getD_concat hcur.length hcur.least ?_⟩
    have ha := getElem?_eq_getElem hi
    have hb := getElem?_eq_getElem (Nat.lt_of_succ_le hj)
    rw [take_succ_of_getElem? ha, take_succ_of_getElem? hb]
    exact cell_least hd hcur ha hb

theorem rows_least (hi : i ≤ ra.length) : RowsLeast ra rb (rows ra rb i) i := by
  induction i with
  | zero =>
    refine ⟨rfl, fun k hk => ?_⟩
    cases Nat.le_zero.mp hk
    refine ⟨length_range, fun j hj => ?_⟩
    have hleast := leastEdits_nil_left (rb.take j)
    rw [length_take_of_le hj] at hleast
    have hget : ((rows ra rb 0).getD 0 []).getD j 0 = j := by simp [rows, Nat.lt_succ_of_le hj]
    rwa [hget]
  | succ i ih =>
    have hd := ih (Nat.le_of_succ_le hi)
    refine ⟨by simp [rows, hd.length], ?_⟩
    exact getD_concat (P := fun k cur => RowLeast ra rb k cur rb.length) hd.length hd.least
      (row_least hd hi le_rfl)

theorem edits_least (ra rb : List Char) : LeastEdits ra rb (edits ra rb) := by
  rw [edits]
  split_ifs with ha hb
  · rw [ha]
    exact leastEdits_nil_left rb
  · rw [hb]
    exact leastEdits_nil_right ra
  · have hleast := (@rows_least ra rb ra.length le_rfl).entry le_rfl le_rfl
    rwa [take_length, take_length] at hleast

/-! ### Words of a text -/

/-- `unicode.IsLetter`, `unicode.IsDigit` and `unicode.ToLower`. -/
structure Unicode where
  isLetter : Char → Bool
  isDigit : Char → Bool
  toLower : Char → Char

section
variable (u : Unicode)

def Unicode.inWord (c : Char) : Bool := u.isLetter c || u.isDigit c

def Unicode.lower (w : List Char) : List Char := w.map u.toLower

def flush (out : List (List Char)) (cur : List Char) : List (List Char) :=
  if cur = [] then out else out ++ [cur]

def wordsLoop (u : Unicode) (out : List (List Char)) (cur : List Char) : List Char → List (List Char)
  | [] => flush out cur
  | r :: text =>
    if u.inWord r then wordsLoop u out (cur ++ [r]) text else wordsLoop u (flush out cur) [] text

def wordsOf (text : List Char) : List (List Char) := wordsLoop u [] [] text

/-! ### Near words -/

def editMinLetters : Nat := 4
def editLongFrom : Nat := 8
def editsShort : Nat := 1
def editsLong : Nat := 2

def allowedFor (letters : Nat) : Nat := if editLongFrom ≤ letters then editsLong else editsShort

/-- The loop over the words of the text: the fewest edits found below `best`. -/
def nearest (w : List Char) (allowed : Nat) : Nat → List (List Char) → Nat
  | best, [] => best
  | best, tw :: rest =>
    if w.length + allowed < tw.length ∨ tw.length + allowed < w.length then nearest w allowed best rest
    else
      let d := edits w tw
      if d < best then
        if d = 0 then d else nearest w allowed d rest
      else nearest w allowed best rest

/-- What one word adds to the total; `none` where the search ends with false. -/
def wordScore (lowered : List (List Char)) (w : List Char) : Option Rat := let w := u.lower w
  if w ∈ lowered then some 1
  else if w.length < editMinLetters then none
  else
    let allowed := allowedFor w.length
    let best := nearest w allowed (allowed + 1) lowered
    if allowed < best then none else some (1 - best / w.length)

def nearByEdits (words : List (List Char)) (text : List Char) : Option Rat :=
  if words = [] then none
  else
    let lowered := (wordsOf u text).map u.lower
    (words.foldlM (fun total w => (wordScore u lowered w).map (total + ·)) 0).map (· / words.length)

end

variable {u : Unicode} {w : List Char} {lowered : List (List Char)} {allowed best : Nat}

/-- The runs of letters and digits of a text. -/
def textWords (u : Unicode) (text : List Char) : List (List Char) :=
  (text.splitOnP fun c => !u.inWord c).filter (· ≠ [])

theorem wordsLoop_eq (out : List (List Char)) (cur text : List Char)
    (hcur : ∀ c ∈ cur, (!u.inWord c) = false) :
    wordsLoop u out cur text = out ++ textWords u (cur ++ text) := by
  induction text generalizing out cur with
  | nil =>
    rw [wordsLoop, textWords, append_nil, splitOnP_eq_singleton hcur, flush]
    split_ifs with hnil
    · simp [hnil]
    · simp [hnil]
  | cons r text ih =>
    rw [wordsLoop]
    split_ifs with hr
    · rw [ih, append_assoc, singleton_append]
      simpa [or_imp, forall_and, hr] using hcur
    · have hr' : (!u.inWord r) := by simpa using hr
      rw [ih _ _ (by simp), textWords, textWords, splitOnP_append_cons_of_forall_mem hcur _ hr', flush]
      split_ifs with hnil
      · simp [hnil]
      · simp [hnil]

theorem edits_le_iff : edits w tw ≤ allowed ↔ ∃ n ≤ allowed, EditScript w tw n := by
  constructor
  · exact fun h => ⟨_, h, (edits_least w tw).1⟩
  · rintro ⟨n, hn, h⟩
    exact ((edits_least w tw).2 h).trans hn

theorem nearest_le_iff :
    nearest w allowed best lowered ≤ allowed ↔ best ≤ allowed ∨ ∃ tw ∈ lowered, edits w tw ≤ allowed := by
  induction lowered generalizing best with
  | nil => simp [nearest]
  | cons tw rest ih =>
    simp only [nearest, mem_cons, exists_eq_or_imp]
    split_ifs with hlength hless hzero
    · -- no word that is near enough is passed over for its length
      have hle := (edits_least w tw).1.length_le
      have hfar : ¬edits w tw ≤ allowed := by omega
      rw [ih, or_iff_right hfar]
    · exact iff_of_true (hzero.le.trans (Nat.zero_le _)) (.inr (.inl (hzero.le.trans (Nat.zero_le _))))
    · rw [ih, ← or_assoc, or_iff_right_of_imp fun h => hless.le.trans h]
    · rw [ih, ← or_assoc, or_iff_left_of_imp fun h => (Nat.le_of_not_lt hless).trans h]

/-- Ignoring case, the word is in the text, or long enough and near a word that is. -/
def Near (u : Unicode) (text w : List Char) : Prop := u.lower w ∈ (textWords u text).map u.lower ∨
    editMinLetters ≤ w.length ∧ ∃ tw ∈ (textWords u text).map u.lower, ∃ n ≤ allowedFor w.length,
      EditScript (u.lower w) tw n

theorem wordScore_isSome (text : List Char) :
    (wordScore u ((wordsOf u text).map u.lower) w).isSome ↔ Near u text w := by
  have hlen : (u.lower w).length = w.length := length_map _
  have hnear : nearest (u.lower w) (allowedFor w.length) (allowedFor w.length + 1)
      ((textWords u text).map u.lower) ≤ allowedFor w.length ↔ _ := nearest_le_iff
  simp only [Nat.not_succ_le_self, false_or, edits_le_iff] at hnear
  have hwords : wordsOf u text = textWords u text := wordsLoop_eq [] [] text (by simp)
  rw [wordScore, Near, hwords, hlen, ← hnear]
  by_cases hin : u.lower w ∈ (textWords u text).map u.lower
  · rw [if_pos hin]
    exact iff_of_true rfl (.inl hin)
  · rw [or_iff_right hin]
    dsimp only
    split_ifs with hshort hfar
    · exact iff_of_false Bool.false_ne_true fun h => absurd h.1 (Nat.not_le_of_lt hshort)
    · exact iff_of_false Bool.false_ne_true fun h => absurd h.2 (Nat.not_le_of_lt hfar)
    · exact iff_of_true rfl ⟨Nat.le_of_not_lt hshort, Nat.le_of_not_lt hfar⟩

theorem foldlM_isSome {f : β → Option Rat} (l : List β) (total : Rat) :
    (l.foldlM (fun total b => (f b).map (total + ·)) total).isSome ↔ ∀ b ∈ l, (f b).isSome := by
  induction l generalizing total with
  | nil => simp
  | cons b l ih =>
    cases hb : f b with
    | none => simp [hb]
    | some r => simp [hb, ih]

/-- `Edits` is the least number of edits, and the search finds the words exactly when each
is in the text or within its allowed number of edits of a word that is. -/
theorem near_by_edits (u : Unicode) (words : List (List Char)) (text : List Char) :
    (∀ w tw, LeastEdits w tw (edits w tw)) ∧
      ((nearByEdits u words text).isSome ↔ words ≠ [] ∧ ∀ w ∈ words, Near u text w) := by
  refine ⟨edits_least, ?_⟩
  rw [nearByEdits]
  split_ifs with hnil
  · simp [hnil]
  · rw [Option.isSome_map, foldlM_isSome]
    simp only [wordScore_isSome, ne_eq, hnil, not_false_eq_true, true_and]

end AiiOs.Memory
