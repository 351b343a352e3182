import Mathlib.Data.List.Basic
import Mathlib.Order.Nat

/-! internal/memory, embed.go: recall by meaning reads the vectors nearest first, passes over one made
for a text its row no longer holds, and reads on where that leaves the pool unfilled. The rows of the
query are a list in the order every read gives them; of a hit, what the layer reads is kept. -/

namespace AiiOs.Memory.Meaning
open List

def maxEmbedChars : Nat := 8000
def staleSlack : Nat := 4
def meaningReadBound : Nat := 1024

structure Hit (α σ : Type) where
  text : List Char
  similarity : α
  vectorOf : σ -- the digest of the text the vector was made for

variable {α σ : Type} [Preorder α] [DecidableLT α] [DecidableEq σ]

def clipForEmbedding (text : List Char) : List Char :=
  if text.length ≤ maxEmbedChars then text else text.take maxEmbedChars

def textSHA (sha256 : List Char → σ) (text : List Char) : σ := sha256 (clipForEmbedding text)

section
variable (sha256 : List Char → σ) (floor : α) (pool : Nat)

def Hit.fresh (h : Hit α σ) : Bool := h.vectorOf = textSHA sha256 h.text

/-- The loop over one read's candidates. -/
def scan : List (Hit α σ) → List (Hit α σ) → Nat → Bool → List (Hit α σ) × Nat × Bool
  | [], kept, passed, spent => (kept, passed, spent)
  | h :: hs, kept, passed, spent =>
    if h.similarity < floor ∨ kept.length = pool then (kept, passed, true)
    else if h.vectorOf ≠ textSHA sha256 h.text then scan hs kept (passed + 1) spent
    else scan hs (kept ++ [h]) passed spent

def readFrom (rows : List (Hit α σ)) : Nat → Nat → Option (List (Hit α σ) × Nat)
  | 0, _ => none
  | fuel + 1, read =>
    let candidates := rows.take read
    let (kept, passed, spent) := scan sha256 floor pool candidates [] 0 (candidates.length < read)
    if spent ∨ kept.length = pool then some (kept, 0)
    else if meaningReadBound ≤ read then some (kept, passed)
    else readFrom rows fuel (min (read * staleSlack) meaningReadBound)

/-- The hits kept and how many were passed over; none would be a loop that does not end. -/
def layerMeaning (rows : List (Hit α σ)) : Option (List (Hit α σ) × Nat) :=
  readFrom sha256 floor pool rows (meaningReadBound + 1) (min (pool * staleSlack) meaningReadBound)

/-- What the query answers: the first of the rows at or above the floor. -/
def firstAbove (rows : List (Hit α σ)) : List (Hit α σ) :=
  (rows.filter fun h => ¬ h.similarity < floor).take pool

end

variable {sha256 : List Char → σ} {floor : α} {pool : Nat} {rows pre rest kept : List (Hit α σ)}

/-- The scan takes the rows up to one that ends it. -/
theorem scan_eq (cs : List (Hit α σ)) (passed : Nat) (spent : Bool) (hkept : kept.length ≤ pool) :
    ∃ pre post, cs = pre ++ post ∧ (∀ h ∈ pre, ¬ h.similarity < floor) ∧
      (kept ++ pre.filter (Hit.fresh sha256)).length ≤ pool ∧
      (∀ h ∈ post.head?, h.similarity < floor ∨ (kept ++ pre.filter (Hit.fresh sha256)).length = pool) ∧
      scan sha256 floor pool cs kept passed spent = (kept ++ pre.filter (Hit.fresh sha256),
        passed + pre.countP (fun h => !h.fresh sha256), spent || !post.isEmpty) := by
  induction cs generalizing kept passed with
  | nil => exact ⟨[], [], rfl, by simp, by simpa using hkept, by simp, by simp [scan]⟩
  | cons h hs ih =>
    by_cases hend : h.similarity < floor ∨ kept.length = pool
    · exact ⟨[], h :: hs, rfl, by simp, by simpa using hkept, by simpa using hend, by simp [scan, hend]⟩
    · have hstep : scan sha256 floor pool (h :: hs) kept passed spent =
          scan sha256 floor pool hs (kept ++ [h].filter (Hit.fresh sha256))
            (passed + [h].countP fun h => !h.fresh sha256) spent := by
        by_cases hf : h.vectorOf = textSHA sha256 h.text <;> simp [scan, hend, hf, Hit.fresh]
      have hroom : (kept ++ [h].filter (Hit.fresh sha256)).length ≤ pool := by
        have := length_filter_le (Hit.fresh sha256) [h]
        simp only [length_append, length_singleton] at *
        omega
      obtain ⟨pre, post, rfl, hall, hle, hpost, hscan⟩ := ih (passed + [h].countP _) hroom
      rw [append_assoc, ← filter_append] at hle hpost hscan
      rw [Nat.add_assoc, ← countP_append] at hscan
      exact ⟨h :: pre, post, rfl, by simpa [not_or.mp hend] using hall, hle, hpost, hstep.trans hscan⟩

/-- Rows above the floor that fill the pool, or behind which all are below it, are the whole answer. -/
theorem firstAbove_of_append (hall : ∀ g ∈ pre, ¬ g.similarity < floor)
    (hle : (pre.filter (Hit.fresh sha256)).length ≤ pool)
    (hend : (pre.filter (Hit.fresh sha256)).length = pool ∨ ∀ g ∈ rest, g.similarity < floor) :
    firstAbove floor pool ((pre ++ rest).filter (Hit.fresh sha256)) = pre.filter (Hit.fresh sha256) := by
  rw [firstAbove, filter_append, filter_append,
    filter_eq_self.mpr fun g hg => by simpa using hall g (mem_filter.mp hg).1]
  rcases hend with hfull | hbelow
  · rw [take_left' hfull]
  · have hnone : (rest.filter (Hit.fresh sha256)).filter (fun h => ¬ h.similarity < floor) = [] :=
      filter_eq_nil_iff.mpr fun g hg => by simpa using hbelow g (mem_filter.mp hg).1
    rw [hnone, append_nil, take_of_length_le hle]

/-- The answer is whole where nothing is said to be passed over, and told to be short otherwise. -/
structure Told (sha256 : List Char → σ) (floor : α) (pool : Nat) (rows kept : List (Hit α σ))
    (passed : Nat) : Prop where
  whole : passed = 0 → kept = firstAbove floor pool (rows.filter (Hit.fresh sha256))
  short : passed ≠ 0 → kept = (rows.take meaningReadBound).filter (Hit.fresh sha256) ∧
    kept.length < pool ∧ ∀ h ∈ rows.take meaningReadBound, ¬ h.similarity < floor

section
variable (hsorted : rows.Pairwise fun g h => h.similarity ≤ g.similarity) (hpool : pool ≤ meaningReadBound)
include hsorted hpool

theorem readFrom_told {fuel read : Nat} (hread : read ≤ meaningReadBound) (hsome : 0 < read ∨ pool = 0)
    (hfuel : meaningReadBound < fuel + read) :
    ∃ kept passed, readFrom sha256 floor pool rows fuel read = some (kept, passed) ∧
      Told sha256 floor pool rows kept passed := by
  induction fuel generalizing read with
  | zero => omega
  | succ fuel ih =>
    obtain ⟨pre, post, hcs, hall, hle, hpost, hscan⟩ := @scan_eq _ _ _ _ _ sha256 floor pool []
      (rows.take read) 0 (decide ((rows.take read).length < read)) (Nat.zero_le pool)
    have hrows := take_append_drop read rows
    simp only [nil_append] at hle hpost hscan
    simp only [readFrom, hscan]
    split_ifs with hend hbound
    · refine ⟨_, 0, rfl, fun _ => ?_, fun h => absurd rfl h⟩
      rw [hcs, append_assoc] at hrows
      rw [← hrows, firstAbove_of_append hall hle]
      refine or_iff_not_imp_left.mpr fun hroom => ?_
      cases post with
      | nil =>
        -- the rows are exhausted
        have hshort : (rows.take read).length < read := by simpa [hroom] using hend
        rw [drop_eq_nil_of_le (by simp at hshort; omega)]
        simp
      | cons h post =>
        -- the rows are in order: all that follow one below the floor are below it
        have hbelow := (hpost h rfl).resolve_right hroom
        rw [← hrows] at hsorted
        have hnext := (pairwise_cons.mp (pairwise_append.mp hsorted).2.1).1
        exact forall_mem_cons.mpr ⟨hbelow, fun g hg => (hnext g hg).trans_lt hbelow⟩
    · obtain rfl : read = meaningReadBound := le_antisymm hread hbound
      obtain ⟨⟨hfull, rfl⟩, hne⟩ : (¬ (rows.take meaningReadBound).length < meaningReadBound ∧ post = []) ∧
          (pre.filter (Hit.fresh sha256)).length ≠ pool := by simpa using hend
      rw [append_nil] at hcs
      have hcount := @length_eq_countP_add_countP _ (Hit.fresh sha256) pre
      rw [countP_eq_length_filter] at hcount
      refine ⟨_, _, rfl, fun h => ?_, fun _ => ⟨by rw [hcs], by omega, hcs ▸ hall⟩⟩
      simp only [Bool.not_eq_true, Bool.decide_eq_false, hcs] at *
      omega
    · refine ih ?_ ?_ ?_ <;> simp only [staleSlack] at * <;> omega

/-- For rows in any fixed order by similarity: where nothing is passed over the answer is the first of
the pool at or above the floor, as if the stale vectors did not exist; otherwise it is the fresh rows
of the first that may be read, fewer than the pool, all of those rows at or above the floor. -/
theorem layerMeaning_told : ∃ kept passed, layerMeaning sha256 floor pool rows = some (kept, passed) ∧
    Told sha256 floor pool rows kept passed :=
  readFrom_told hsorted hpool (min_le_right ..) (by simp only [staleSlack]; omega) (by omega)

end

/-- One vector of its row's text behind a nearer one of another text. -/
theorem layerMeaning_told_behind :
    ∃ kept passed, layerMeaning List.length 1 1 [⟨['a'], 3, 2⟩, ⟨['b'], 2, 1⟩] = some (kept, passed) ∧
      Told List.length 1 1 [⟨['a'], 3, 2⟩, ⟨['b'], 2, 1⟩] kept passed :=
  layerMeaning_told (by simp) (by decide)

end AiiOs.Memory.Meaning
