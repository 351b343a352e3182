import Mathlib.Algebra.Ring.Int.Defs
import Mathlib.Algebra.Ring.Nat
import Mathlib.Data.List.Count

/-! internal/conversation, loop.go: the rounds of `RunTurn`. What the provider answers and what
the calls come to is given for each round; what is left is which rounds offer tools, when the
turn is closed and what its result says. -/

namespace AiiOs.Conversation
open List

/-- The configuration after `withDefaults`. -/
structure Limits where
  maxIterations : Nat
  graceRounds : Nat
  some_rounds : 0 < maxIterations
  some_grace : 0 < graceRounds

inductive Reply
  | unhandledStop
  | degenerate (toolCalls : Bool)
  | text (empty : Bool)
  | toolCalls

/-- What decides a round, in the order the loop comes to it. -/
structure Round where
  cancelled : Bool
  tokensSpent : Bool
  fits : Bool
  askFails : Bool
  reply : Reply
  refuseFails : Bool
  executeFails : Bool
  surplus : Bool
  yielded : Bool
  /-- A prediction is kept and the calls have come to its limit. -/
  spent : Bool
  closingFits : Bool
  closingFails : Bool

/-- How a turn ends. `ranOut` is the end of the loop itself: no flag of the result is set. -/
inductive Exit
  | failed
  | stopped
  | degenerate
  | answered
  | callBudget
  | continuedAtTokenBudget
  | continuedAtPressure
  | yielded
  | continuedAtCap
  | exhaustedBudget
  | ranOut
  deriving DecidableEq, Repr

inductive Event
  /-- A call with tools. -/
  | offered (round : Nat)
  /-- The checkpoint note. -/
  | noted (round : Nat)
  /-- The note after a first degenerate emission, whose calls are discarded. -/
  | nudged (round : Nat)
  /-- A call without tools. -/
  | closing
  deriving DecidableEq, Repr

/-- `begun` counts the rounds the loop has come to, those it leaves for a cancelled context too. -/
structure Turn where
  softCapFinal : Option Nat
  degenNudged : Bool
  begun : Nat
  roundsUsed : Nat
  log : List Event

namespace Turn

def say (t : Turn) (e : Event) : Turn := { t with log := t.log ++ [e] }

/-- `finalCall`, and the end of the turn. -/
def finalCall (t : Turn) (r : Round) (e : Exit) : Turn × Option Exit :=
  if r.closingFits then (t.say .closing, some (if r.closingFails then .failed else e))
  else (t, some .failed)

section
variable (cfg : Limits) (i : Nat) (r : Round) (t : Turn)

def checkpoint : Turn :=
  if t.softCapFinal = none ∧ r.spent ∧ cfg.graceRounds < cfg.maxIterations - 1 - i then
    { t.say (.noted i) with softCapFinal := some (i + cfg.graceRounds) }
  else t

def afterCalls : Turn × Option Exit :=
  if i + 1 = cfg.maxIterations ∨ t.softCapFinal = some i ∨ r.yielded then
    t.finalCall r (if r.yielded then .yielded
      else if t.softCapFinal = some i ∧ i + 1 ≠ cfg.maxIterations then .continuedAtCap
      else .exhaustedBudget)
  else (t, none)

def answer : Turn × Option Exit := match r.reply with
  | .unhandledStop => (t, some (if r.refuseFails then .failed else .stopped))
  | .degenerate toolCalls =>
    if r.refuseFails then (t, some .failed)
    else if t.degenNudged ∨ !toolCalls then (t, some .degenerate)
    else ({ t.say (.nudged i) with degenNudged := true }, none)
  | .text empty => (t, some (if empty then .failed else .answered))
  | .toolCalls =>
    if r.executeFails then (t, some .failed)
    else if r.surplus then (t, some (if r.refuseFails then .failed else .callBudget))
    else (t.checkpoint cfg i r).afterCalls cfg i r

/-- The round behind the test of the context. -/
def fenced : Turn × Option Exit :=
  if 0 < i ∧ r.tokensSpent then t.finalCall r .continuedAtTokenBudget
  else if !r.fits then
    if i = 0 then (t, some .failed) else t.finalCall r .continuedAtPressure
  else if r.askFails then (t.say (.offered i), some .failed)
  else (t.say (.offered i)).answer cfg i r

def round : Turn × Option Exit :=
  if r.cancelled then ({ t with begun := i + 1 }, some .failed)
  else { t with begun := i + 1, roundsUsed := i + 1 }.fenced cfg i r

end

end Turn

def runFrom (cfg : Limits) (rounds : Nat → Round) : Nat → Nat → Turn → Turn × Exit
  | 0, _, t => (t, .ranOut)
  | n + 1, i, t =>
    match t.round cfg i (rounds i) with
    | (t, some e) => (t, e)
    | (t, none) => runFrom cfg rounds n (i + 1) t

variable {l : List Event}

section
variable {cfg : Limits} {i : Nat} {r : Round} {t t' : Turn} {e : Exit}

/-- A round the turn goes on from: it was nudged, or its calls were run and neither bound was
reached; the checkpoint note may have been sent. -/
inductive GoesOn (cfg : Limits) (i : Nat) (t t' : Turn) : Prop
  | nudged (hlog : t'.log = t.log ++ [.offered i, .nudged i]) (hcap : t'.softCapFinal = t.softCapFinal)
  | ran (hlog : t'.log = t.log ++ [.offered i]) (hcap : t'.softCapFinal = t.softCapFinal)
      (hlast : i + 1 ≠ cfg.maxIterations) (hsoft : t.softCapFinal ≠ some i)
  | noted (hlog : t'.log = t.log ++ [.offered i, .noted i]) (hnone : t.softCapFinal = none)
      (hcap : t'.softCapFinal = some (i + cfg.graceRounds))
      (hlast : i + cfg.graceRounds + 1 < cfg.maxIterations)

structure EndsIn (cfg : Limits) (i : Nat) (t : Turn) (l : List Event) (e : Exit) : Prop where
  exit : e ≠ .ranOut
  added : ∀ ev ∈ l, ev = .offered i ∨ ev = .closing ∨ ev = .noted i ∧ t.softCapFinal = none
  cap : e = .continuedAtCap → t.softCapFinal = some i ∧ l = [.offered i, .closing]
  spent : e = .exhaustedBudget → i + 1 = cfg.maxIterations ∧ l = [.offered i, .closing]

def Verdict (cfg : Limits) (i : Nat) (t : Turn) (v : Turn × Option Exit) : Prop :=
  v.1.begun = i + 1 ∧ match v.2 with
    | none => GoesOn cfg i t v.1
    | some e => (e = .failed ∨ v.1.roundsUsed = i + 1) ∧ ∃ l, v.1.log = t.log ++ l ∧ EndsIn cfg i t l e

theorem EndsIn.early (he : e ≠ .ranOut ∧ e ≠ .continuedAtCap ∧ e ≠ .exhaustedBudget)
    (hl : ∀ ev ∈ l, ev = .offered i ∨ ev = .closing ∨ ev = .noted i ∧ t.softCapFinal = none) :
    EndsIn cfg i t l e := ⟨he.1, hl, fun h => absurd h he.2.1, fun h => absurd h he.2.2⟩

variable {u : Turn}

section
variable (hused : u.begun = i + 1 ∧ u.roundsUsed = i + 1)
include hused

theorem verdict_early (hlog : u.log = t.log ++ l)
    (he : e ≠ .ranOut ∧ e ≠ .continuedAtCap ∧ e ≠ .exhaustedBudget)
    (hl : ∀ ev ∈ l, ev = .offered i ∨ ev = .closing ∨ ev = .noted i ∧ t.softCapFinal = none) :
    Verdict cfg i t (u, some e) := ⟨hused.1, .inr hused.2, l, hlog, .early he hl⟩

theorem verdict_finalCall (hlog : u.log = t.log ++ l)
    (h : EndsIn cfg i t (l ++ [.closing]) e) : Verdict cfg i t (u.finalCall r e) := by
  have hsaid : (u.say .closing).log = t.log ++ (l ++ [.closing]) := by rw [Turn.say, hlog, append_assoc]
  have hl := h.added
  unfold Turn.finalCall
  split_ifs with hfits hfails
  · exact verdict_early hused hsaid ⟨nofun, nofun, nofun⟩ hl
  · exact ⟨hused.1, .inr hused.2, _, hsaid, h⟩
  · exact verdict_early hused hlog ⟨nofun, nofun, nofun⟩ fun ev hev => hl ev (mem_append_left _ hev)

theorem verdict_afterCalls (hlog : u.log = t.log ++ .offered i :: l)
    (hl : ∀ ev ∈ l, ev = .noted i ∧ t.softCapFinal = none)
    (hquiet : i + 1 = cfg.maxIterations ∨ u.softCapFinal = some i → l = [] ∧ u.softCapFinal = t.softCapFinal)
    (hon : i + 1 ≠ cfg.maxIterations → u.softCapFinal ≠ some i → GoesOn cfg i t u) :
    Verdict cfg i t (u.afterCalls cfg i r) := by
  have hadded : ∀ ev ∈ .offered i :: l ++ [.closing],
      ev = .offered i ∨ ev = .closing ∨ ev = .noted i ∧ t.softCapFinal = none := by
    intro ev hev
    simp only [cons_append, mem_cons, mem_append, not_mem_nil, or_false] at hev
    rcases hev with rfl | hev | rfl
    · exact .inl rfl
    · exact .inr (.inr (hl ev hev))
    · exact .inr (.inl rfl)
  unfold Turn.afterCalls
  split_ifs with hend hyielded hcap
  · exact verdict_finalCall hused hlog (.early (by decide) hadded)
  · obtain ⟨rfl, hsame⟩ := hquiet (.inr hcap.1)
    exact verdict_finalCall hused hlog ⟨nofun, hadded, fun _ => ⟨hsame ▸ hcap.1, rfl⟩, nofun⟩
  · have hlast : i + 1 = cfg.maxIterations := by
      rcases hend with h | h | h
      · exact h
      · exact not_not.mp fun hne => hcap ⟨h, hne⟩
      · exact absurd h hyielded
    obtain ⟨rfl, -⟩ := hquiet (.inl hlast)
    exact verdict_finalCall hused hlog ⟨nofun, hadded, nofun, fun _ => ⟨hlast, rfl⟩⟩
  · exact ⟨hused.1, hon (fun h => hend (.inl h)) fun h => hend (.inr (.inl h))⟩

theorem verdict_answer (hlog : u.log = t.log ++ [.offered i])
    (hcap : u.softCapFinal = t.softCapFinal) : Verdict cfg i t (u.answer cfg i r) := by
  have hone : ∀ ev ∈ [Event.offered i],
      ev = .offered i ∨ ev = .closing ∨ ev = .noted i ∧ t.softCapFinal = none := by simp
  have hearly : ∀ {e : Exit}, e ≠ .ranOut ∧ e ≠ .continuedAtCap ∧ e ≠ .exhaustedBudget →
      Verdict cfg i t (u, some e) := fun he => verdict_early hused hlog he hone
  unfold Turn.answer
  cases r.reply with
  | unhandledStop => exact hearly (by split_ifs <;> exact ⟨nofun, nofun, nofun⟩)
  | text empty => exact hearly (by split_ifs <;> exact ⟨nofun, nofun, nofun⟩)
  | degenerate toolCalls =>
    dsimp only
    split_ifs
    · exact hearly ⟨nofun, nofun, nofun⟩
    · exact hearly ⟨nofun, nofun, nofun⟩
    · exact ⟨hused.1, .nudged (by simp [Turn.say, hlog]) hcap⟩
  | toolCalls =>
    dsimp only
    split
    · exact hearly ⟨nofun, nofun, nofun⟩
    by_cases hsurplus : r.surplus
    · rw [if_pos hsurplus]
      exact hearly (by split_ifs <;> exact ⟨nofun, nofun, nofun⟩)
    rw [Turn.checkpoint]
    have hgrace := cfg.some_grace
    split_ifs with hnote
    · obtain ⟨hnone, -, hlt⟩ := hnote
      have hsaid : (u.say (.noted i)).log = t.log ++ [.offered i, .noted i] := by simp [Turn.say, hlog]
      refine verdict_afterCalls hused hsaid (by simp [← hcap, hnone]) (fun h => ?_) fun _ _ => ?_
      · rcases h with h | h
        · omega
        · have := Option.some_inj.mp h
          omega
      · exact .noted hsaid (hcap ▸ hnone) rfl (by omega)
    · exact verdict_afterCalls hused hlog (by simp) (fun _ => ⟨rfl, hcap⟩) fun hlast hsoft =>
        .ran hlog hcap hlast (hcap ▸ hsoft)

end

theorem verdict_round : Verdict cfg i t (t.round cfg i r) := by
  have hclosed : ∀ ev ∈ [] ++ [Event.closing],
      ev = .offered i ∨ ev = .closing ∨ ev = .noted i ∧ t.softCapFinal = none := by simp
  rw [Turn.round]
  split
  · exact ⟨rfl, .inl rfl, [], (append_nil _).symm, .early ⟨nofun, nofun, nofun⟩ nofun⟩
  unfold Turn.fenced
  split_ifs
  · exact verdict_finalCall ⟨rfl, rfl⟩ (append_nil _).symm (.early (by decide) hclosed)
  · exact verdict_early ⟨rfl, rfl⟩ (append_nil _).symm ⟨nofun, nofun, nofun⟩ nofun
  · exact verdict_finalCall ⟨rfl, rfl⟩ (append_nil _).symm (.early (by decide) hclosed)
  · exact verdict_early ⟨rfl, rfl⟩ rfl ⟨nofun, nofun, nofun⟩ (by simp)
  · exact verdict_answer ⟨rfl, rfl⟩ rfl rfl

end

/-! ### The whole turn -/

def Missed (cfg : Limits) (log : List Event) : Prop :=
  ∃ i, .nudged i ∈ log ∧ (i + 1 = cfg.maxIterations ∨ ∃ k, .noted k ∈ log ∧ i = k + cfg.graceRounds)

/-- The loop comes to no round behind the one the checkpoint leads to, and the loop does not run out. -/
structure Bounded (cfg : Limits) (v : Turn × Exit) : Prop where
  capped : ∀ k, .noted k ∈ v.1.log → v.1.begun ≤ k + cfg.graceRounds + 1
  closed : v.2 ≠ .ranOut

/-- The turn before round `i`. -/
structure Before (cfg : Limits) (i : Nat) (t : Turn) : Prop where
  noted : ∀ k, .noted k ∈ t.log ↔ t.softCapFinal = some (k + cfg.graceRounds)
  nudged : ∀ j, .nudged j ∈ t.log → j < i
  unclosed : .closing ∉ t.log
  missed : Missed cfg t.log ↔ i = cfg.maxIterations ∨ ∃ c, t.softCapFinal = some c ∧ c < i
  cap : ∀ c, t.softCapFinal = some c → ∃ k, c = k + cfg.graceRounds

section
variable {cfg : Limits} {i : Nat} {t t' : Turn}

theorem Before.goesOn (h : Before cfg i t) (hi : i < cfg.maxIterations) (hg : GoesOn cfg i t t') :
    Before cfg (i + 1) t' := by
  have hcap := h.cap
  have hgrace := cfg.some_grace
  -- a nudged round may have been the last one, by the limit or by the soft cap
  cases hg with
  | nudged hlog hsame =>
    refine ⟨?_, ?_, ?_, ?_, hsame ▸ hcap⟩
    · simpa [hlog, hsame] using h.noted
    · intro j hj
      have hj' : .nudged j ∈ t.log ∨ j = i := by simpa [hlog] using hj
      rcases hj' with hj' | rfl
      · exact Nat.lt_succ_of_lt (h.nudged j hj')
      · exact Nat.lt_succ_self j
    · simpa [hlog] using h.unclosed
    · have hsplit : Missed cfg t'.log ↔
          Missed cfg t.log ∨ i + 1 = cfg.maxIterations ∨ t.softCapFinal = some i := by
        simp only [Missed, hlog, mem_append, h.noted]
        grind
      rw [hsplit, h.missed]
      grind
  | ran hlog hsame hlast hsoft =>
    refine ⟨?_, ?_, ?_, ?_, hsame ▸ hcap⟩
    · simpa [hlog, hsame] using h.noted
    · intro j hj
      exact Nat.lt_succ_of_lt (h.nudged j (by simpa [hlog] using hj))
    · simpa [hlog] using h.unclosed
    · have hsplit : Missed cfg t'.log ↔ Missed cfg t.log := by simp [Missed, hlog]
      rw [hsplit, h.missed]
      grind
  | noted hlog hnone hsome hlast =>
    have hfree : ¬ Missed cfg t.log := by
      rw [h.missed, hnone]
      simp
      omega
    refine ⟨?_, ?_, ?_, ?_, fun c hc => ⟨i, Option.some_inj.mp (hc.symm.trans hsome)⟩⟩
    · intro k
      have := h.noted k
      grind
    · intro j hj
      exact Nat.lt_succ_of_lt (h.nudged j (by simpa [hlog] using hj))
    · simpa [hlog] using h.unclosed
    · refine iff_of_false ?_ ?_
      · rintro ⟨j, hj, hend⟩
        have hj' : .nudged j ∈ t.log := by simpa [hlog] using hj
        have hlt := h.nudged j hj'
        rcases hend with hend | ⟨k, hk, hend⟩
        · omega
        · simp [hlog] at hk
          rcases hk with hk | rfl
          · exact hfree ⟨j, hj', .inr ⟨k, hk, hend⟩⟩
          · omega
      · rw [hsome]
        simp
        omega

structure Closed (cfg : Limits) (v : Turn × Exit) : Prop where
  bounded : Bounded cfg v ↔ ¬ Missed cfg v.1.log
  cap : v.2 = .continuedAtCap → v.1.log.count .closing = 1 ∧
    ∃ k, .noted k ∈ v.1.log ∧ .offered (k + cfg.graceRounds) ∈ v.1.log ∧
      v.1.roundsUsed = k + cfg.graceRounds + 1
  spent : v.2 = .exhaustedBudget → v.1.log.count .closing = 1 ∧
    .offered (cfg.maxIterations - 1) ∈ v.1.log ∧ v.1.roundsUsed = cfg.maxIterations

theorem Before.endsIn {e : Exit} (h : Before cfg i t) (hi : i < cfg.maxIterations)
    (hbegun : t'.begun = i + 1) (hused : e = .failed ∨ t'.roundsUsed = i + 1)
    (hlog : t'.log = t.log ++ l) (he : EndsIn cfg i t l e) : Closed cfg (t', e) := by
  have hcount : l = [.offered i, .closing] → t'.log.count .closing = 1 := by
    rintro rfl
    rw [hlog, count_append, count_eq_zero.mpr h.unclosed]
    rfl
  have hnoted : ∀ k, .noted k ∈ t'.log → t.softCapFinal = some (k + cfg.graceRounds) ∨
      k = i ∧ t.softCapFinal = none := by
    intro k hk
    rw [hlog, mem_append] at hk
    rcases hk with hk | hk
    · exact .inl ((h.noted k).mp hk)
    · rcases he.added _ hk with hk | hk | ⟨hk, hnone⟩
      · cases hk
      · cases hk
      · cases hk
        exact .inr ⟨rfl, hnone⟩
  have hnudged : ∀ j, .nudged j ∈ t'.log ↔ .nudged j ∈ t.log := by
    intro j
    rw [hlog, mem_append, or_iff_left]
    intro hj
    rcases he.added _ hj with hj | hj | ⟨hj, -⟩ <;> cases hj
  refine ⟨⟨fun hb => ?_, fun hm => ⟨fun k hk => ?_, he.exit⟩⟩, fun hcap => ?_, fun hspent => ?_⟩
  · rintro ⟨j, hj, hend⟩
    have hlt := h.nudged j ((hnudged j).mp hj)
    rcases hend with hend | ⟨k, hk, rfl⟩
    · omega
    · have := hb.capped k hk
      dsimp only at this
      omega
  · rw [hbegun]
    by_contra hlt
    refine hm ?_
    rcases hnoted k hk with hcap | ⟨rfl, -⟩
    · obtain ⟨j, hj, hend⟩ := h.missed.mpr (.inr ⟨_, hcap, by omega⟩)
      refine ⟨j, (hnudged j).mpr hj, hend.imp_right ?_⟩
      rintro ⟨k', hk', rfl⟩
      exact ⟨k', by rw [hlog]; exact mem_append_left _ hk', rfl⟩
    · omega
  · obtain ⟨hsoft, rfl⟩ := he.cap hcap
    obtain ⟨k, rfl⟩ := h.cap i hsoft
    refine ⟨hcount rfl, k, ?_, ?_, hused.resolve_left (hcap.trans_ne nofun)⟩
    · rw [hlog]
      exact mem_append_left _ ((h.noted k).mpr hsoft)
    · simp [hlog]
  · obtain ⟨hlast, rfl⟩ := he.spent hspent
    refine ⟨hcount rfl, ?_, (hused.resolve_left (hspent.trans_ne nofun)).trans hlast⟩
    simp [hlog, ← hlast]

theorem Before.closed (rounds : Nat → Round) (n : Nat) (h : Before cfg i t)
    (hn : i + n = cfg.maxIterations) : Closed cfg (runFrom cfg rounds n i t) := by
  induction n generalizing i t with
  | zero =>
    have hm : Missed cfg t.log := h.missed.mpr (.inl hn)
    exact ⟨iff_of_false (fun hb => hb.closed rfl) (not_not.mpr hm), nofun, nofun⟩
  | succ n ih =>
    rw [runFrom]
    have hv := @verdict_round cfg i (rounds i) t
    cases hr : t.round cfg i (rounds i) with
    | mk t' o =>
      rw [hr] at hv
      cases o with
      | none => exact ih (h.goesOn (by omega) hv.2) (by omega)
      | some e =>
        obtain ⟨hbegun, hused, l, hlog, he⟩ := hv
        exact h.endsIn (by omega) hbegun hused hlog he

end

end AiiOs.Conversation
