import Mathlib.Data.Set.Card

/-! A breadth-first walk that opens a bounded number of points. Opening a point gives the
points under it and says whether it is a leaf; points that come when the bound is met are
turned away. What is found lies within reach, and where nothing was turned away it is all
the leaves within reach. -/

namespace Lib
open List
variable {α ε : Type}

structure Walked (α : Type) where
  seen : List α
  found : List α
  turnedAway : List α
  opened : Nat

def Walked.enter (w : Walked α) (a : α) (leaf : Bool) : Walked α :=
  { w with seen := a :: w.seen, found := if leaf then a :: w.found else w.found, opened := w.opened + 1 }

section
variable [DecidableEq α] (expand : α → Except ε (List α × Bool)) (bound : Nat)

def explore (queue : List α) (w : Walked α) : Except ε (Walked α) := match queue with
  | [] => .ok w
  | a :: queue =>
    if a ∈ w.seen then explore queue w
    else if bound ≤ w.opened then explore queue { w with turnedAway := w.turnedAway.insert a }
    else
      match expand a with
      | .error e => .error e
      | .ok (below, leaf) => explore (queue ++ below) (w.enter a leaf)
termination_by (bound - w.opened, queue.length)
decreasing_by
  · exact .right _ (by simp)
  · exact .right _ (by simp)
  · exact .left _ _ (by simp only [Walked.enter]; omega)

end

/-! ### Leaves within reach -/

/-- Within reach of `sources` without coming through `centre`. -/
inductive Reach (under : α → α → Prop) (centre : α) (sources : List α) : α → Prop
  | source {a : α} (h : a ∈ sources) (hne : a ≠ centre) : Reach under centre sources a
  | step {a b : α} (h : Reach under centre sources a) (hb : under a b) (hne : b ≠ centre) :
    Reach under centre sources b

def leavesWithin (under : α → α → Prop) (isLeaf : α → Prop) (centre : α) (sources : List α) : Set α :=
  { a | Reach under centre sources a ∧ isLeaf a }

structure Opens (expand : α → Except ε (List α × Bool)) (under : α → α → Prop) (isLeaf : α → Prop) :
    Prop where
  under : ∀ {a below leaf}, expand a = .ok (below, leaf) → ∀ b, b ∈ below ↔ under a b
  leaf : ∀ {a below leaf}, expand a = .ok (below, leaf) → (leaf ↔ isLeaf a)

variable {expand : α → Except ε (List α × Bool)} {under : α → α → Prop} {isLeaf : α → Prop}
  {centre : α} {sources : List α}

theorem Reach.ne_centre {a : α} (h : Reach under centre sources a) : a ≠ centre := by
  cases h <;> assumption

section
variable {sources' : List α} (hsame : ∀ a, a ∈ sources ↔ a ∈ sources')
include hsame

theorem Reach.congr {a : α} (h : Reach under centre sources a) : Reach under centre sources' a := by
  induction h with
  | source h hne => exact .source ((hsame _).mp h) hne
  | step _ hb hne ih => exact .step ih hb hne

theorem leavesWithin_congr :
    leavesWithin under isLeaf centre sources = leavesWithin under isLeaf centre sources' := by
  ext a
  exact ⟨fun ⟨h, hleaf⟩ => ⟨h.congr hsame, hleaf⟩, fun ⟨h, hleaf⟩ => ⟨h.congr fun b => (hsame b).symm, hleaf⟩⟩

end

/-! ### The walk -/

def Met (queue : List α) (w : Walked α) (a : α) : Prop := a ∈ w.seen ∨ a ∈ queue ∨ a ∈ w.turnedAway

/-- The walk so far: what it came upon is seen, waits or was turned away, and the leaves
among what was seen are found. -/
structure Walking (under : α → α → Prop) (isLeaf : α → Prop) (centre : α) (sources queue : List α)
    (w : Walked α) : Prop where
  centre_seen : centre ∈ w.seen
  queue_reach : ∀ a ∈ queue, a ≠ centre → Reach under centre sources a
  seen_reach : ∀ a ∈ w.seen, a ≠ centre → Reach under centre sources a
  sources_met : ∀ a ∈ sources, Met queue w a
  under_met : ∀ a ∈ w.seen, a ≠ centre → ∀ b, under a b → Met queue w b
  found_iff : ∀ a, a ∈ w.found ↔ a ∈ w.seen ∧ a ≠ centre ∧ isLeaf a
  nodup : w.found.Nodup

theorem Walking.start : Walking under isLeaf centre sources sources ⟨[centre], [], [], 0⟩ where
  centre_seen := mem_singleton.mpr rfl
  queue_reach _ h hne := .source h hne
  seen_reach a h hne := absurd (mem_singleton.mp h) hne
  sources_met _ h := .inr (.inl h)
  under_met a h hne := absurd (mem_singleton.mp h) hne
  found_iff a := by simp +contextual
  nodup := nodup_nil

variable {queue : List α} {w w' : Walked α} {a : α}

theorem Walking.pass (h : Walking under isLeaf centre sources (a :: queue) w) {turnedAway : List α}
    (hkept : ∀ b ∈ w.turnedAway, b ∈ turnedAway) (ha : a ∈ w.seen ∨ a ∈ turnedAway) :
    Walking under isLeaf centre sources queue { w with turnedAway := turnedAway } := by
  have hmet : ∀ b, Met (a :: queue) w b → Met queue { w with turnedAway := turnedAway } b := by
    rintro b (hb | hb | hb)
    · exact .inl hb
    · rcases mem_cons.mp hb with rfl | hb
      · exact ha.imp_right .inr
      · exact .inr (.inl hb)
    · exact .inr (.inr (hkept b hb))
  exact { h with
    queue_reach := fun b hb => h.queue_reach b (mem_cons_of_mem a hb)
    sources_met := fun b hb => hmet b (h.sources_met b hb)
    under_met := fun b hb hne c hc => hmet c (h.under_met b hb hne c hc) }

theorem Walking.enter (hopens : Opens expand under isLeaf)
    (h : Walking under isLeaf centre sources (a :: queue) w) (ha : a ∉ w.seen) {below : List α}
    {leaf : Bool} (he : expand a = .ok (below, leaf)) :
    Walking under isLeaf centre sources (queue ++ below) (w.enter a leaf) := by
  have hne : a ≠ centre := fun hc => ha (hc ▸ h.centre_seen)
  have hreach := h.queue_reach a mem_cons_self hne
  have hfound : a ∉ w.found := fun hf => ha ((h.found_iff a).mp hf).1
  have hmet : ∀ b, Met (a :: queue) w b → Met (queue ++ below) (w.enter a leaf) b := by
    rintro b (hb | hb | hb)
    · exact .inl (mem_cons_of_mem a hb)
    · rcases mem_cons.mp hb with rfl | hb
      · exact .inl mem_cons_self
      · exact .inr (.inl (mem_append_left _ hb))
    · exact .inr (.inr hb)
  refine ⟨mem_cons_of_mem a h.centre_seen, ?_, ?_, fun b hb => hmet b (h.sources_met b hb), ?_, ?_, ?_⟩
  · intro b hb hbne
    rcases mem_append.mp hb with hb | hb
    · exact h.queue_reach b (mem_cons_of_mem a hb) hbne
    · exact .step hreach ((hopens.under he b).mp hb) hbne
  · intro b hb hbne
    rcases mem_cons.mp hb with rfl | hb
    · exact hreach
    · exact h.seen_reach b hb hbne
  · intro b hb hbne c hc
    rcases mem_cons.mp hb with rfl | hb
    · exact .inr (.inl (mem_append_right _ ((hopens.under he c).mpr hc)))
    · exact hmet c (h.under_met b hb hbne c hc)
  · intro b
    have hleaf := hopens.leaf he
    have hiff := h.found_iff b
    simp only [Walked.enter]
    by_cases hb : b = a
    · subst hb
      cases leaf with
      | true => simp [hne, hleaf.mp rfl]
      | false => simpa [hfound, hne] using hleaf
    · cases leaf <;> simp [hb, hiff]
  · cases leaf with
    | true => exact nodup_cons.mpr ⟨hfound, h.nodup⟩
    | false => exact h.nodup

section
variable (h : Walking under isLeaf centre sources [] w)
include h

theorem Walking.mem_of_found (ha : a ∈ w.found) : a ∈ leavesWithin under isLeaf centre sources := by
  obtain ⟨hseen, hne, hleaf⟩ := (h.found_iff a).mp ha
  exact ⟨h.seen_reach a hseen hne, hleaf⟩

theorem Walking.seen_of_reach (hall : w.turnedAway = []) (hreach : Reach under centre sources a) :
    a ∈ w.seen := by
  have hmet : ∀ b, Met [] w b → b ∈ w.seen := by simp [Met, hall]
  induction hreach with
  | source hs _ => exact hmet _ (h.sources_met _ hs)
  | @step c b hr hb _ ih => exact hmet b (h.under_met c ih hr.ne_centre b hb)

end

section
variable [DecidableEq α] {bound : Nat}

theorem Walking.explore (hopens : Opens expand under isLeaf)
    (h : Walking under isLeaf centre sources queue w)
    (hw : explore expand bound queue w = .ok w') : Walking under isLeaf centre sources [] w' := by
  fun_induction Lib.explore expand bound queue w with
  | case1 w =>
    cases hw
    exact h
  | case2 w a queue ha ih => exact ih (h.pass (fun _ hb => hb) (.inl ha)) hw
  | case3 w a queue ha hbound ih =>
    exact ih (h.pass (fun _ hb => mem_insert_of_mem hb) (.inr mem_insert_self)) hw
  | case4 w a queue ha hbound e he => cases hw
  | case5 w a queue ha hbound below leaf he ih => exact ih (h.enter hopens ha he) hw

theorem explore_eq_error {e : ε} (hw : explore expand bound queue w = .error e) :
    ∃ a, expand a = .error e := by
  fun_induction explore expand bound queue w with
  | case1 w => cases hw
  | case2 w a queue ha ih => exact ih hw
  | case3 w a queue ha hbound ih => exact ih hw
  | case4 w a queue ha hbound e' he =>
    cases hw
    exact ⟨a, he⟩
  | case5 w a queue ha hbound below leaf he ih => exact ih hw

theorem Walking.length_found_le (h : Walking under isLeaf centre sources [] w)
    (hfinite : (leavesWithin under isLeaf centre sources).Finite) :
    w.found.length ≤ (leavesWithin under isLeaf centre sources).ncard := by
  rw [← toFinset_card_of_nodup h.nodup, ← Set.ncard_coe_finset]
  refine Set.ncard_le_ncard ?_ hfinite
  intro a ha
  exact h.mem_of_found (by simpa using ha)

theorem Walking.length_found_eq (h : Walking under isLeaf centre sources [] w) (hall : w.turnedAway = []) :
    w.found.length = (leavesWithin under isLeaf centre sources).ncard := by
  rw [← toFinset_card_of_nodup h.nodup, ← Set.ncard_coe_finset]
  congr 1
  ext a
  rw [Finset.mem_coe, List.mem_toFinset]
  exact ⟨h.mem_of_found, fun ha => (h.found_iff a).mpr ⟨h.seen_of_reach hall ha.1, ha.1.ne_centre, ha.2⟩⟩

end

end Lib
