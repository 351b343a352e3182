import AiiOs.Lib.Fold
import AiiOs.Lib.Modify
import AiiOs.Outbox.Rows

/-! internal/store, outbox.go: the claims on one message over its whole life. A claim is
known by the time it was made at, and a claim that is given back leaves no trace of that
time, so a later claim can be made at the same one. -/

namespace AiiOs.Outbox
open Lib List Option Table

/-! ### The calls on one message -/

inductive Call
  | release
  | record (answer : Bytes) (permanent : Bool) (parkAfter : Nat)
  | unknown (via answer : Bytes)
  | delivered (via : Bytes)
  deriving DecidableEq, Repr

def Call.run (c : Call) (d : Dispatch) (now : Int) (t : Rows) : Except StoreError Rows :=
  match c with
  | .release => (releaseDispatch d t).map Prod.snd
  | .record answer permanent parkAfter =>
    (recordDeliveryAttempt d answer permanent parkAfter now t).map Prod.snd
  | .unknown via answer => (markEffectUnknown d via answer now t).map Prod.snd
  | .delivered via => (markDispatchDelivered d via now t).map Prod.snd

inductive Standing
  | outstanding
  | settled
  | released
  deriving DecidableEq, Repr

def Call.outcome : Call → Standing
  | .release => .released
  | .record .. | .unknown .. | .delivered .. => .settled

structure Token where
  dispatch : Dispatch
  standing : Standing
  deriving DecidableEq, Repr

def Token.isOutstanding (k : Token) : Bool := k.standing = .outstanding

/-- The rows, and the claims on the message that were granted, in their order. -/
structure Desk where
  rows : Rows
  tokens : List Token
  /-- A claim was granted with the time of one that was released before. -/
  clash : Bool

inductive Op
  | claimDispatch (now : Int)
  | claimForPage (now : Int)
  | call (i : Nat) (c : Call) (now : Int)
  | settleInterruptedDispatches (answer : Bytes) (now : Int)
  | settleRestore (answer : Bytes) (now : Int)
  deriving DecidableEq, Repr

namespace Desk

def grant (s : Desk) : Except StoreError (Dispatch × Rows) → Desk
  | .error _ => s
  | .ok (d, t) =>
    { rows := t
      tokens := s.tokens ++ [⟨d, .outstanding⟩]
      clash := s.clash || s.tokens.any fun k => k.standing = .released && k.dispatch.atMs = d.atMs }

/-- A write over all rows: if it changes the row of the message, it settles its claim. -/
def sweep (id : Bytes) (s : Desk) (p : OutboxMessage → Bool) (t : Rows) : Desk :=
  { s with
    rows := t
    tokens :=
      if (s.rows.find? id).any p then
        s.tokens.map fun k => if k.isOutstanding then { k with standing := .settled } else k
      else s.tokens }

def step (id : Bytes) (s : Desk) : Op → Desk
  | .claimDispatch now => s.grant (claimDispatch id now s.rows)
  | .claimForPage now => s.grant (claimForPage id now s.rows)
  | .call i c now =>
    match s.tokens[i]? with
    | none => s
    | some k =>
      match c.run k.dispatch now s.rows with
      | .error _ => s
      | .ok t => { s with rows := t, tokens := s.tokens.modify i fun k => { k with standing := c.outcome } }
  | .settleInterruptedDispatches answer now =>
    s.sweep id (fun r => !r.delivered && inFlight r) (settleInterruptedDispatches answer now s.rows)
  | .settleRestore answer now =>
    s.sweep id (fun r => r.toRole = .peer && !r.delivered && !r.parked) (settleRestore answer now s.rows)

def run (id : Bytes) (s : Desk) (ops : List Op) : Desk := ops.foldl (step id) s

def start (t : Rows) : Desk := ⟨t, [], false⟩

end Desk

/-! ### What a call does -/

section
variable {t t' : Rows} {d : Dispatch} {now : Int} {id : Bytes} {m m' : OutboxMessage} {c : Call}

structure Settles (m m' : OutboxMessage) : Prop where
  dispatchedMs : m'.dispatchedMs = m.dispatchedMs
  last : m.dispatchedMs.getD 0 ≤ m'.lastAttemptMs
  delivered : m.delivered → m'.delivered

theorem Settles.landed (h : Settles m m') : inFlight m' = false := by
  rw [inFlight, h.dispatchedMs]
  exact decide_eq_false (Int.not_lt.mpr h.last)

theorem settles_settled {r : OutboxMessage} (hkeep : r.dispatchedMs = m.dispatchedMs)
    (hdelivered : m.delivered → r.delivered) (now : Int) : Settles m (settled now r) where
  dispatchedMs := hkeep
  last := by
    rw [← hkeep]
    exact Int.le_max_right _ _
  delivered := hdelivered

theorem settles_unknown (answer : Bytes) (now : Int) (m : OutboxMessage) :
    Settles m (settled now { m with lastError := answer, parked := true, effect := .unknown }) := by
  refine settles_settled ?_ ?_ now
  · rfl
  · exact fun hd => hd

/-- What became of the row of a claim that was settled or released. -/
def Closes (d : Dispatch) (outcome : Standing) (m m' : OutboxMessage) : Prop :=
  (outcome = .released ∧ m' = { m with dispatchedMs := d.before }) ∨ (outcome = .settled ∧ Settles m m')

theorem settleDispatch_closes {set : OutboxMessage → OutboxMessage} {hset : ∀ m, (set m).id = m.id}
    (h : settleDispatch d set hset now t = .ok ((), t')) (hkeep : ∀ m, (set m).dispatchedMs = m.dispatchedMs)
    (hdelivered : ∀ m, m.delivered → (set m).delivered) :
    ∃ m m', t.find? d.messageID = some m ∧ d.stands m ∧ t'.find? d.messageID = some m' ∧ Settles m m' := by
  obtain ⟨m, hm, hstands, hfind⟩ := settleDispatch_eq_ok h
  exact ⟨m, _, hm, hstands, (hfind d.messageID).trans (if_pos rfl), settles_settled (hkeep m)
    (hdelivered m) now⟩

theorem Call.run_eq_ok (h : c.run d now t = .ok t') :
    ∃ m m', t.find? d.messageID = some m ∧ d.stands m ∧ t'.find? d.messageID = some m' ∧
      Closes d c.outcome m m' := by
  cases c with
  | release =>
    obtain ⟨⟨⟨⟩, t₁⟩, hrelease, rfl⟩ := map_eq_ok.mp h
    obtain ⟨m, hm, hstands, hfind⟩ := releaseDispatch_eq_ok hrelease
    exact ⟨m, _, hm, hstands, (hfind d.messageID).trans (if_pos rfl), .inl ⟨rfl, rfl⟩⟩
  | record answer permanent parkAfter =>
    obtain ⟨⟨r, t₁⟩, hrecord, rfl⟩ := map_eq_ok.mp h
    rw [recordDeliveryAttempt] at hrecord
    split at hrecord
    · cases hrecord
    rename_i m₀ hrow
    obtain ⟨⟨⟨⟩, t₂⟩, hsettle, heq⟩ := bind_eq_ok.mp hrecord
    cases heq
    obtain ⟨m, m', hm, hstands, hm', hsettles⟩ := settleDispatch_closes hsettle (fun _ => rfl) fun _ => id
    exact ⟨m, m', hrow ▸ hm, hstands, hm', .inr ⟨rfl, hsettles⟩⟩
  | unknown via answer =>
    obtain ⟨⟨⟨⟩, t₁⟩, hsettle, rfl⟩ := map_eq_ok.mp h
    obtain ⟨m, m', hm, hstands, hm', hsettles⟩ := settleDispatch_closes hsettle (fun _ => rfl) fun _ => id
    exact ⟨m, m', hm, hstands, hm', .inr ⟨rfl, hsettles⟩⟩
  | delivered via =>
    obtain ⟨⟨⟨⟩, t₁⟩, hsettle, rfl⟩ := map_eq_ok.mp h
    obtain ⟨m, m', hm, hstands, hm', hsettles⟩ := settleDispatch_closes hsettle (fun _ => rfl) fun _ _ => rfl
    exact ⟨m, m', hm, hstands, hm', .inr ⟨rfl, hsettles⟩⟩

theorem Call.run_superseded (hm : t.find? d.messageID = some m) (h : d.stands m = false) (c : Call)
    (now : Int) :
    c.run d now t = .error .claimSuperseded := by
  have hnone : t.affected d.stands ≠ 1 := by
    intro hone
    obtain ⟨m', hm', hstands⟩ := (affected_eq_one fun r hr => (stands_iff.mp hr).1).mp hone
    rw [hm] at hm'
    cases hm'
    rw [h] at hstands
    cases hstands
  cases c with
  | release => rw [Call.run, releaseDispatch, if_pos hnone]; rfl
  | record answer permanent parkAfter =>
    rw [Call.run, recordDeliveryAttempt, hm]
    simp only [settleDispatch, if_pos hnone]
    rfl
  | unknown via answer => rw [Call.run, markEffectUnknown, settleDispatch, if_pos hnone]; rfl
  | delivered via => rw [Call.run, markDispatchDelivered, settleDispatch, if_pos hnone]; rfl

end

/-! ### Where the claims on the message are -/

/-- The row is free, or its one outstanding claim stands; a row that was in flight before the
first call has no claim. What was settled lies at or before the time the row goes back to. -/
inductive Position (m : OutboxMessage) (tokens : List Token) : Prop
  | free (landed : inFlight m = false) (none : ∀ k ∈ tokens, k.standing ≠ .outstanding)
      (settled : ∀ k ∈ tokens, k.standing = .settled → k.dispatch.atMs ≤ m.dispatchedMs.getD 0)
  | held (i : Nat) (o : Token) (here : tokens[i]? = some o) (outstanding : o.standing = .outstanding)
      (only : ∀ j k, tokens[j]? = some k → k.standing = .outstanding → j = i) (stands : o.dispatch.stands m)
      (before : o.dispatch.before.getD 0 ≤ m.lastAttemptMs)
      (settled : ∀ k ∈ tokens, k.standing = .settled → k.dispatch.atMs ≤ o.dispatch.before.getD 0)
      (released : ∀ k ∈ tokens, k.standing = .released → k.dispatch.atMs ≠ o.dispatch.atMs)
  | left (flying : inFlight m) (none : tokens = [])

structure Sound (id : Bytes) (s : Desk) : Prop where
  row : ∃ m, s.rows.find? id = some m ∧ Position m s.tokens
  ids : ∀ k ∈ s.tokens, k.dispatch.messageID = id

section
variable {m m' : OutboxMessage} {tokens : List Token} {k : Token} {id : Bytes} {s : Desk}

theorem inFlight_iff : inFlight m ↔ m.lastAttemptMs < m.dispatchedMs.getD 0 := decide_eq_true_iff

section
variable (h : Position m tokens)
include h

theorem Position.stands (hk : k ∈ tokens) (hstands : k.dispatch.stands m) :
    k.standing = .outstanding := by
  obtain ⟨-, htime, hflying⟩ := stands_iff.mp hstands
  have hlast := inFlight_iff.mp hflying
  rw [htime, getD_some] at hlast
  cases h with
  | free landed _ _ =>
    rw [landed] at hflying
    cases hflying
  | held i o _ _ _ hstands' before settled released =>
    obtain ⟨-, htime', -⟩ := stands_iff.mp hstands'
    have hsame : k.dispatch.atMs = o.dispatch.atMs := Option.some.inj (htime.symm.trans htime')
    cases hstanding : k.standing with
    | outstanding => rfl
    | settled =>
      have := settled k hk hstanding
      omega
    | released => exact absurd hsame (released k hk hstanding)
  | left _ none =>
    rw [none] at hk
    cases hk

theorem Position.countP_le : tokens.countP Token.isOutstanding ≤ 1 := by
  have hout : ∀ k : Token, k.isOutstanding ↔ k.standing = .outstanding := fun k => decide_eq_true_iff
  refine countP_le_one fun i j a b ha hb hpa hpb => ?_
  cases h with
  | free _ none _ => exact absurd ((hout a).mp hpa) (none a (mem_of_getElem? ha))
  | held _ _ _ _ only _ _ _ _ => rw [only i a ha ((hout a).mp hpa), only j b hb ((hout b).mp hpb)]
  | left _ none =>
    rw [none] at ha
    cases ha

theorem Position.closed {i : Nat} {outcome : Standing} (hk : tokens[i]? = some k)
    (hstands : k.dispatch.stands m) (hcloses : Closes k.dispatch outcome m m') :
    Position m' (tokens.modify i fun k => { k with standing := outcome }) := by
  have hmem := mem_of_getElem? hk
  have hout := h.stands hmem hstands
  obtain ⟨-, htime, hflying⟩ := stands_iff.mp hstands
  cases h with
  | free _ none _ => exact absurd hout (none k hmem)
  | left _ none =>
    rw [none] at hmem
    cases hmem
  | held j o here _ only _ before settled _ =>
    obtain rfl := only i k hk hout
    rw [hk] at here
    cases here
    have hlast := inFlight_iff.mp hflying
    rw [htime, getD_some] at hlast
    -- the tokens but this one are as they were, and none of them is outstanding
    have hother : ∀ k', (∃ j, j ≠ i ∧ tokens[j]? = some k') → k'.standing ≠ .outstanding := by
      rintro k' ⟨j, hne, hj⟩ hk'
      exact hne (only j k' hj hk')
    rcases hcloses with ⟨rfl, rfl⟩ | ⟨rfl, hsettles⟩
    · refine .free (decide_eq_false (Int.not_lt.mpr before)) (fun k' hk' => ?_) fun k' hk' hsettled => ?_
      · rcases mem_modify hk' with ⟨k₀, -, rfl⟩ | hk'
        · nofun
        · exact hother k' hk'
      · rcases mem_modify hk' with ⟨k₀, -, rfl⟩ | ⟨j, -, hj⟩
        · cases hsettled
        · exact settled k' (mem_of_getElem? hj) hsettled
    · refine .free hsettles.landed (fun k' hk' => ?_) fun k' hk' hsettled => ?_
      · rcases mem_modify hk' with ⟨k₀, -, rfl⟩ | hk'
        · nofun
        · exact hother k' hk'
      · rw [hsettles.dispatchedMs, htime, getD_some]
        rcases mem_modify hk' with ⟨k₀, hk₀, rfl⟩ | ⟨j, -, hj⟩
        · rw [hk] at hk₀
          cases hk₀
          exact Int.le_refl _
        · have := settled k' (mem_of_getElem? hj) hsettled
          omega

theorem Position.granted (now : Int) (hfree : inFlight m = false)
    (hclash : ∀ k ∈ tokens, k.standing = .released → k.dispatch.atMs ≠ max now (m.lastAttemptMs + 1)) :
    Position (claimed now m)
      (tokens ++ [⟨⟨m.id, max now (m.lastAttemptMs + 1), m.dispatchedMs⟩, .outstanding⟩]) := by
  cases h with
  | held _ o _ _ _ hstands _ _ _ =>
    obtain ⟨-, -, hflying⟩ := stands_iff.mp hstands
    rw [hfree] at hflying
    cases hflying
  | left hflying _ =>
    rw [hfree] at hflying
    cases hflying
  | free _ none settled =>
    have hlast := Int.not_lt.mp (of_decide_eq_false hfree)
    -- of the tokens only the new one, at the end, is outstanding
    have hnew : ∀ k ∈ tokens ++ [⟨⟨m.id, max now (m.lastAttemptMs + 1), m.dispatchedMs⟩, .outstanding⟩],
        k.standing ≠ .outstanding → k ∈ tokens := by
      intro k hk hout
      rcases mem_append.mp hk with hk | hk
      · exact hk
      · rw [mem_singleton.mp hk] at hout
        exact absurd rfl hout
    refine .held tokens.length _ getElem?_concat_length rfl ?_ ?_ hlast ?_ ?_
    · intro j k hj hout
      rcases lt_trichotomy j tokens.length with hlt | heq | hgt
      · rw [getElem?_append_left hlt] at hj
        exact absurd hout (none k (mem_of_getElem? hj))
      · exact heq
      · rw [getElem?_eq_none (by simp only [length_append, length_singleton]; omega)] at hj
        cases hj
    · refine stands_iff.mpr ⟨rfl, rfl, inFlight_iff.mpr ?_⟩
      change m.lastAttemptMs < max now (m.lastAttemptMs + 1)
      omega
    · intro k hk hsettled
      exact settled k (hnew k hk (by rw [hsettled]; nofun)) hsettled
    · intro k hk hreleased
      exact hclash k (hnew k hk (by rw [hreleased]; nofun)) hreleased

theorem Position.swept (hsettles : Settles m m') :
    Position m' (tokens.map fun k => if k.isOutstanding then { k with standing := .settled } else k) := by
  have hnone : ∀ k ∈ tokens.map fun k => if k.isOutstanding then { k with standing := .settled } else k,
      k.standing ≠ .outstanding := by
    intro k hk
    obtain ⟨k₀, -, rfl⟩ := List.mem_map.mp hk
    split_ifs with hout
    · nofun
    · exact of_decide_eq_false (Bool.eq_false_iff.mpr hout)
  refine .free hsettles.landed hnone fun k hk hsettled => ?_
  rw [hsettles.dispatchedMs]
  obtain ⟨k₀, hk₀, rfl⟩ := List.mem_map.mp hk
  cases h with
  | left _ none =>
    rw [none] at hk₀
    cases hk₀
  | free _ none settled =>
    have hout : k₀.isOutstanding = false := decide_eq_false (none k₀ hk₀)
    rw [hout] at hsettled ⊢
    exact settled k₀ hk₀ hsettled
  | held i o here _ only hstands before settled _ =>
    obtain ⟨-, htime, hflying⟩ := stands_iff.mp hstands
    have hlast := inFlight_iff.mp hflying
    by_cases hout : k₀.isOutstanding
    · obtain ⟨j, hj⟩ := getElem?_of_mem hk₀
      obtain rfl := only j k₀ hj (of_decide_eq_true hout)
      rw [here] at hj
      cases hj
      rw [if_pos hout, htime]
      exact Int.le_refl _
    · rw [if_neg hout] at hsettled ⊢
      have := settled k₀ hk₀ hsettled
      omega

end

end

/-! ### Runs -/

section
variable {id : Bytes} {s : Desk} {op : Op}

variable {m : OutboxMessage} {ops : List Op} {may : OutboxMessage → Bool}

theorem walkable_free (h : walkable m) : inFlight m = false ∧ m.delivered = false := by
  simp only [walkable, Bool.and_eq_true, Bool.not_eq_true'] at h
  exact ⟨h.2, h.1.1⟩

theorem pageMayCarry_free (h : pageMayCarry m) : inFlight m = false ∧ m.delivered = false := by
  simp only [pageMayCarry, Bool.and_eq_true, Bool.not_eq_true'] at h
  exact ⟨h.2, h.1.1.2⟩

theorem Sound.grant (hmay : ∀ m, may m → inFlight m = false) {now : Int}
    (h : Sound id s) (hclash : (s.grant (claim id may now s.rows)).clash = false) :
    Sound id (s.grant (claim id may now s.rows)) := by
  cases hclaim : claim id may now s.rows with
  | error e => exact h
  | ok r =>
    obtain ⟨d, t⟩ := r
    rw [hclaim] at hclash
    obtain ⟨m, hm, hposition⟩ := h.row
    obtain ⟨m', hm', hfree, rfl, hfind⟩ := claim_eq_ok hclaim
    rw [hm] at hm'
    cases hm'
    have hid : m.id = id := (find?_eq_some.mp hm).2
    simp only [Desk.grant, Bool.or_eq_false_iff, List.any_eq_false, Bool.and_eq_true,
      decide_eq_true_eq, not_and] at hclash
    refine ⟨⟨claimed now m, (hfind id).trans (if_pos rfl), ?_⟩, ?_⟩
    · have hgranted := hposition.granted now (hmay m hfree) hclash.2
      rw [hid] at hgranted
      exact hgranted
    · intro k hk
      rcases mem_append.mp hk with hk | hk
      · exact h.ids k hk
      · rw [mem_singleton.mp hk]

theorem Sound.call {i : Nat} {c : Call} {now : Int} (h : Sound id s) :
    Sound id (s.step id (.call i c now)) := by
  rw [Desk.step]
  cases hk : s.tokens[i]? with
  | none => exact h
  | some k =>
    simp only
    cases hrun : c.run k.dispatch now s.rows with
    | error e => exact h
    | ok t =>
      have hmem := mem_of_getElem? hk
      obtain ⟨m, hm, hposition⟩ := h.row
      obtain ⟨m₀, m', hm₀, hstands, hm', hcloses⟩ := Call.run_eq_ok hrun
      rw [h.ids k hmem] at hm₀ hm'
      rw [hm] at hm₀
      cases hm₀
      refine ⟨⟨m', hm', hposition.closed hk hstands hcloses⟩, fun k' hk' => ?_⟩
      rcases mem_modify hk' with ⟨k₀, hk₀, rfl⟩ | ⟨j, -, hj⟩
      · exact h.ids k₀ (mem_of_getElem? hk₀)
      · exact h.ids k' (mem_of_getElem? hj)

theorem Sound.sweep {p : OutboxMessage → Bool} {f : OutboxMessage → OutboxMessage} (hf : ∀ r, (f r).id = r.id)
    (hsettles : ∀ m, Settles m (f m)) (h : Sound id s) : Sound id (s.sweep id p (s.rows.update p f hf)) := by
  obtain ⟨m, hm, hposition⟩ := h.row
  have hrow : (s.rows.update p f hf).find? id = some (if p m then f m else m) := by
    rw [find?_update, hm]
    rfl
  rw [Desk.sweep, hm, any_some]
  split_ifs at hrow ⊢ with hp
  · refine ⟨⟨f m, hrow, hposition.swept (hsettles m)⟩, fun k hk => ?_⟩
    obtain ⟨k₀, hk₀, rfl⟩ := List.mem_map.mp hk
    split_ifs
    · exact h.ids k₀ hk₀
    · exact h.ids k₀ hk₀
  · exact ⟨⟨m, hrow, hposition⟩, h.ids⟩

theorem Sound.step (h : Sound id s) (hclash : (s.step id op).clash = false) : Sound id (s.step id op) := by
  cases op with
  | claimDispatch now => exact h.grant (fun m hm => (walkable_free hm).1) hclash
  | claimForPage now => exact h.grant (fun m hm => (pageMayCarry_free hm).1) hclash
  | call i c now => exact h.call
  | settleInterruptedDispatches answer now => exact h.sweep _ (settles_unknown answer now)
  | settleRestore answer now => exact h.sweep _ (settles_unknown answer now)

theorem clash_step (h : s.clash) : (s.step id op).clash := by
  have hgrant : ∀ r, (s.grant r).clash := by
    intro r
    cases r with
    | error e => exact h
    | ok r => rw [Desk.grant, h, Bool.true_or]
  cases op with
  | claimDispatch now => exact hgrant _
  | claimForPage now => exact hgrant _
  | call i c now =>
    rw [Desk.step]
    cases s.tokens[i]? with
    | none => exact h
    | some k =>
      simp only
      cases c.run k.dispatch now s.rows with
      | error e => exact h
      | ok t => exact h
  | settleInterruptedDispatches answer now => exact h
  | settleRestore answer now => exact h

theorem clash_run (h : s.clash) : (s.run id ops).clash := by
  induction ops generalizing s with
  | nil => exact h
  | cons op ops ih => exact ih (clash_step h)

theorem Desk.run_invariant {P : Desk → Prop} (hstep : ∀ s op, P s → (s.step id op).clash = false →
    P (s.step id op)) (h : P s) (hclash : (s.run id ops).clash = false) : P (s.run id ops) := by
  induction ops generalizing s with
  | nil => exact h
  | cons op ops ih =>
    have hrun : s.run id (op :: ops) = (s.step id op).run id ops := rfl
    rw [hrun] at hclash ⊢
    refine ih (hstep s op h ?_) hclash
    cases hnow : (s.step id op).clash with
    | false => rfl
    | true =>
      rw [clash_run hnow] at hclash
      cases hclash

theorem sound_start {t : Rows} (hm : t.find? id = some m) : Sound id (Desk.start t) := by
  refine ⟨⟨m, hm, ?_⟩, fun k hk => absurd hk not_mem_nil⟩
  cases hflying : inFlight m with
  | true => exact .left hflying rfl
  | false => exact .free hflying (fun k hk => absurd hk not_mem_nil) fun k hk => absurd hk not_mem_nil

/-! ### Delivered messages -/

def Delivered (id : Bytes) (s : Desk) : Prop := ∃ m, s.rows.find? id = some m ∧ m.delivered

theorem Delivered.refuses (hmay : ∀ m, may m → m.delivered = false)
    (h : Delivered id s) (now : Int) : claim id may now s.rows = .error .claimRefused := by
  obtain ⟨m, hm, hdelivered⟩ := h
  cases hclaim : claim id may now s.rows with
  | ok r =>
    obtain ⟨m', hm', hfree, -, -⟩ := claim_eq_ok (show claim id may now s.rows = .ok (r.1, r.2) from hclaim)
    rw [hm] at hm'
    cases hm'
    rw [hmay m hfree] at hdelivered
    cases hdelivered
  | error e =>
    rw [claim, hm] at hclaim
    simp only at hclaim
    split_ifs at hclaim
    cases hclaim
    rfl

theorem Delivered.step (hids : ∀ k ∈ s.tokens, k.dispatch.messageID = id) (h : Delivered id s) :
    Delivered id (s.step id op) := by
  have hsweep : ∀ {p f} (hf : ∀ r, (f r).id = r.id), (∀ m, Settles m (f m)) →
      Delivered id (s.sweep id p (s.rows.update p f hf)) := by
    intro p f hf hsettles
    obtain ⟨m, hm, hdelivered⟩ := h
    refine ⟨if p m then f m else m, ?_, ?_⟩
    · rw [Desk.sweep, find?_update, hm]
      rfl
    · split_ifs
      · exact (hsettles m).delivered hdelivered
      · exact hdelivered
  cases op with
  | claimDispatch now =>
    rw [Desk.step, claimDispatch, h.refuses fun m hm => (walkable_free hm).2]
    exact h
  | claimForPage now =>
    rw [Desk.step, claimForPage, h.refuses fun m hm => (pageMayCarry_free hm).2]
    exact h
  | call i c now =>
    rw [Desk.step]
    cases hk : s.tokens[i]? with
    | none => exact h
    | some k =>
      simp only
      cases hrun : c.run k.dispatch now s.rows with
      | error e => exact h
      | ok t =>
        obtain ⟨m, hm, hdelivered⟩ := h
        obtain ⟨m₀, m', hm₀, -, hm', hcloses⟩ := Call.run_eq_ok hrun
        rw [hids k (mem_of_getElem? hk)] at hm₀ hm'
        rw [hm] at hm₀
        cases hm₀
        refine ⟨m', hm', ?_⟩
        rcases hcloses with ⟨-, rfl⟩ | ⟨-, hsettles⟩
        · exact hdelivered
        · exact hsettles.delivered hdelivered
  | settleInterruptedDispatches answer now => exact hsweep _ (settles_unknown answer now)
  | settleRestore answer now => exact hsweep _ (settles_unknown answer now)

end

/-! ### Claims are settled once -/

/-- Over every run of the calls on a message in which no claim is granted at the time of one
released before: one claim at most is outstanding, a call with any other one changes nothing
and says so, and what was delivered once is not claimed. -/
theorem tokens_settle_once {id : Bytes} {t : Rows} {m : OutboxMessage} (hm : t.find? id = some m)
    (ops : List Op)
    (hclash : ((Desk.start t).run id ops).clash = false) :
    ((Desk.start t).run id ops).tokens.countP Token.isOutstanding ≤ 1 ∧
      (∀ k ∈ ((Desk.start t).run id ops).tokens, k.standing ≠ .outstanding →
        ∀ c now, Call.run c k.dispatch now ((Desk.start t).run id ops).rows = .error .claimSuperseded) ∧
      ∀ ops₁ ops₂, ops = ops₁ ++ ops₂ → Delivered id ((Desk.start t).run id ops₁) → ∀ now,
        claimDispatch id now ((Desk.start t).run id ops).rows = .error .claimRefused ∧
          claimForPage id now ((Desk.start t).run id ops).rows = .error .claimRefused := by
  have hsound := Desk.run_invariant (fun s op => .step) (sound_start hm) hclash
  obtain ⟨m', hm', hposition⟩ := hsound.row
  refine ⟨hposition.countP_le, ?_, ?_⟩
  · intro k hk hclosed c now
    refine Call.run_superseded (m := m') ?_ ?_ c now
    · rw [hsound.ids k hk, hm']
    · cases hstands : k.dispatch.stands m' with
      | false => rfl
      | true => exact absurd (hposition.stands hk hstands) hclosed
  · rintro ops₁ ops₂ rfl hdelivered now
    have hrun : (Desk.start t).run id (ops₁ ++ ops₂) = ((Desk.start t).run id ops₁).run id ops₂ :=
      foldl_append
    rw [hrun] at hclash ⊢
    -- a clash shows in every later state, so that the run before had none
    have hfirst : ((Desk.start t).run id ops₁).clash = false := by
      rw [← Bool.not_eq_true]
      intro hnow
      rw [clash_run hnow] at hclash
      cases hclash
    have hboth : Sound id ((Desk.start t).run id ops₁) ∧ Delivered id ((Desk.start t).run id ops₁) :=
      ⟨Desk.run_invariant (fun s op => .step) (sound_start hm) hfirst, hdelivered⟩
    have hlater := Desk.run_invariant (P := fun s => Sound id s ∧ Delivered id s)
      (fun s op hs hnow => ⟨hs.1.step hnow, hs.2.step hs.1.ids⟩) hboth hclash
    exact ⟨hlater.2.refuses (fun m hm => (walkable_free hm).2) now,
      hlater.2.refuses (fun m hm => (pageMayCarry_free hm).2) now⟩

def notice : OutboxMessage := newMessage (bytesOf "m") .operator [] (bytesOf "hello") 0

def noticeRows : Rows := ⟨[notice], by decide⟩

/-- Two claims, the first given back, the second settled at a later time. -/
theorem tokens_settle_once_notice :
    let s := (Desk.start noticeRows).run notice.id
      [.claimDispatch 5, .call 0 .release 5, .claimDispatch 6, .call 1 (.delivered []) 7]
    s.tokens.map Token.standing = [.released, .settled] ∧ s.tokens.countP Token.isOutstanding ≤ 1 ∧
      claimDispatch notice.id 9 s.rows = .error .claimRefused := by
  intro s
  have hsettle := @tokens_settle_once notice.id noticeRows notice (by decide +kernel)
    [.claimDispatch 5, .call 0 .release 5, .claimDispatch 6, .call 1 (.delivered []) 7] (by decide +kernel)
  refine ⟨by decide +kernel, hsettle.1, ?_⟩
  refine (hsettle.2.2 _ [] (append_nil _).symm ?_ 9).1
  exact ⟨s.rows.rows.head (by decide +kernel), by decide +kernel, by decide +kernel⟩

/-- A claim is given back, and one is made in the same millisecond. The first token is
released, and releasing with it again takes the second claim away. -/
theorem released_token_releases_again :
    let s := (Desk.start noticeRows).run notice.id [.claimDispatch 5, .call 0 .release 5, .claimDispatch 5]
    s.tokens = [⟨⟨notice.id, 5, none⟩, .released⟩, ⟨⟨notice.id, 5, none⟩, .outstanding⟩] ∧
      s.rows.rows = [{ notice with dispatchedMs := some 5 }] ∧
      (Call.run .release ⟨notice.id, 5, none⟩ 5 s.rows).map Table.rows = .ok [notice] := by
  refine ⟨by decide +kernel, by decide +kernel, by decide +kernel⟩

end AiiOs.Outbox
