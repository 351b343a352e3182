import AiiOs.Lib.Fold
import AiiOs.Outbox.Channels

/-! A message is handed over until a call may have sent it, and then no more: over every
interleaving of passes and pages, with writes that fail, lost answers and stops. -/

namespace AiiOs.Outbox
open Lib List Option Table

/-! ### The invariant -/

def Certain (o : Option SendVerdict) : Prop := o = some .notSent ∨ o = some .neverHere

def Closed (m : OutboxMessage) : Prop :=
  m.delivered ∨ (m.parked ∧ m.effect = .unknown) ∨ inFlight m

section
variable (w : World)

def AllCertain (id : Bytes) : Prop := ∀ o ∈ w.handed id, Certain o

structure Safe (w : World) (id : Bytes) : Prop where
  earlier : ∀ o ∈ (w.handed id).dropLast, Certain o
  closed : ¬AllCertain w id → ∃ m, w.rows.find? id = some m ∧ Closed m

def Stands (d : Dispatch) : Prop := ∃ m, w.rows.find? d.messageID = some m ∧ d.stands m

/-- The claim of a page: it stands, and can be given back, or a boot has settled it. -/
def PageHeld (d : Dispatch) : Prop :=
  ∃ m, w.rows.find? d.messageID = some m ∧
    ((d.stands m ∧ d.before.getD 0 ≤ m.lastAttemptMs ∧ AllCertain w d.messageID) ∨
      (inFlight m = false ∧ (m.delivered ∨ (m.parked ∧ m.effect = .unknown))))

def Pass.claims : Pass → List Dispatch
  | .sending _ s => s.claim.toList
  | .calling _ _ d _ _ _ => [d]
  | .delivered _ d _ => [d]
  | .unknown _ d _ _ => [d]
  | _ => []

def Page.claims : Page → List Dispatch
  | .listing => []
  | .claiming _ claims => claims
  | .settling _ claims => claims

def Proc.claims : Proc → List Dispatch
  | .pass p => p.claims
  | .page p => p.claims

def Proc.ids (p : Proc) : List Bytes := p.claims.map Dispatch.messageID

def Pass.Ok : Pass → Prop
  | .sending _ s => ∀ d, s.claim = some d → d.messageID = s.message.id ∧ Stands w d ∧ AllCertain w d.messageID
  | .calling _ s d _ _ n =>
    s.claim = some d ∧ d.messageID = s.message.id ∧ Stands w d ∧
      ∃ os, w.handed d.messageID = os ++ [none] ∧ n = os.length ∧ ∀ o ∈ os, Certain o
  | .delivered _ d _ => Stands w d
  | .unknown _ d _ _ => Stands w d
  | _ => True

def Page.Ok (p : Page) : Prop := (p.claims.map Dispatch.messageID).Nodup ∧ ∀ d ∈ p.claims, PageHeld w d

def Proc.Ok : Proc → Prop
  | .pass p => w.live ∧ p.Ok w
  | .page p => p.Ok w

end

def Proc.Beside (p q : Proc) : Prop := ∀ k ∈ p.ids, k ∉ q.ids

section
variable {w w' : World} {d : Dispatch} {id k : Bytes} {m : OutboxMessage} {p q : Proc} {i : Input}

/-! ### Rows and claims -/

theorem closed_of_stands (h : d.stands m) : Closed m := .inr (.inr (stands_iff.mp h).2.2)

theorem not_closed_of_walkable (h : walkable m) : ¬Closed m := by
  simp only [walkable, Bool.and_eq_true, Bool.not_eq_true'] at h
  rintro (hd | ⟨hp, -⟩ | hf)
  · rw [h.1.1] at hd
    cases hd
  · rw [h.1.2] at hp
    cases hp
  · rw [h.2] at hf
    cases hf

theorem not_closed_of_pageMayCarry (h : pageMayCarry m) : ¬Closed m := by
  simp only [pageMayCarry, Bool.and_eq_true, Bool.not_eq_true', decide_eq_true_eq] at h
  rintro (hd | ⟨-, he⟩ | hf)
  · rw [h.1.1.2] at hd
    cases hd
  · exact h.1.2 he
  · rw [h.2] at hf
    cases hf

theorem inFlight_claimed (now : Int) (m : OutboxMessage) : inFlight (claimed now m) := by
  have hlt : m.lastAttemptMs < max now (m.lastAttemptMs + 1) := by omega
  exact decide_eq_true hlt

theorem inFlight_settled (now : Int) (m : OutboxMessage) : inFlight (settled now m) = false := by
  have hle : ¬max now (m.dispatchedMs.getD 0) < m.dispatchedMs.getD 0 := by omega
  exact decide_eq_false hle

theorem Proc.Ok.closed (h : p.Ok w) (hk : k ∈ p.ids) : ∃ m, w.rows.find? k = some m ∧ Closed m := by
  obtain ⟨d, hd, rfl⟩ := List.mem_map.mp hk
  have hstands (hs : Stands w d) : ∃ m, w.rows.find? d.messageID = some m ∧ Closed m := by
    obtain ⟨m, hm, hs⟩ := hs
    exact ⟨m, hm, closed_of_stands hs⟩
  cases p with
  | pass p =>
    obtain ⟨-, hok⟩ := h
    cases p with
    | sending _ s =>
      obtain ⟨-, hs, -⟩ := hok d (mem_toList.mp hd)
      exact hstands hs
    | calling =>
      cases mem_singleton.mp hd
      exact hstands hok.2.2.1
    | delivered =>
      cases mem_singleton.mp hd
      exact hstands hok
    | unknown =>
      cases mem_singleton.mp hd
      exact hstands hok
    | listing => cases hd
    | listed => cases hd
    | routing => cases hd
    | walking => cases hd
  | page p =>
    obtain ⟨m, hm, ⟨hs, -⟩ | ⟨-, hclosed⟩⟩ := h.2 d hd
    · exact ⟨m, hm, closed_of_stands hs⟩
    · exact ⟨m, hm, hclosed.elim .inl fun h => .inr (.inl h)⟩

/-! ### Steps that touch one message -/

def Agree (w w' : World) (k : Bytes) : Prop := w'.rows.find? k = w.rows.find? k ∧ w'.handed k = w.handed k

theorem Agree.allCertain (h : Agree w w' k) (hall : AllCertain w k) : AllCertain w' k := by
  rw [AllCertain, h.2]
  exact hall

theorem Agree.stands (h : Agree w w' d.messageID) (hs : Stands w d) : Stands w' d := by
  rw [Stands, h.1]
  exact hs

theorem Agree.safe (h : Agree w w' k) (hs : Safe w k) : Safe w' k := by
  refine ⟨?_, fun hall => ?_⟩
  · rw [h.2]
    exact hs.earlier
  · rw [h.1]
    exact hs.closed fun hw => hall (h.allCertain hw)

theorem Agree.pageHeld (h : Agree w w' d.messageID) (hs : PageHeld w d) : PageHeld w' d := by
  obtain ⟨m, hm, hcases⟩ := hs
  refine ⟨m, by rw [h.1]; exact hm, hcases.imp_left ?_⟩
  rintro ⟨hstands, hbefore, hall⟩
  exact ⟨hstands, hbefore, h.allCertain hall⟩

theorem Proc.Ok.frame (h : p.Ok w) (hlive : w'.live = w.live) (hagree : ∀ k ∈ p.ids, Agree w w' k) :
    p.Ok w' := by
  have hids {d : Dispatch} (hd : d ∈ p.claims) : Agree w w' d.messageID := hagree _ (List.mem_map_of_mem hd)
  cases p with
  | page p => exact ⟨h.1, fun d hd => (hids hd).pageHeld (h.2 d hd)⟩
  | pass p =>
    refine ⟨hlive ▸ h.1, ?_⟩
    obtain ⟨-, h⟩ := h
    cases p with
    | sending _ s =>
      intro d hd
      obtain ⟨hid, hs, hall⟩ := h d hd
      have hsame := hids (mem_toList.mpr hd)
      exact ⟨hid, hsame.stands hs, hsame.allCertain hall⟩
    | calling _ s d =>
      obtain ⟨hclaim, hid, hs, os, hos, hn, hcertain⟩ := h
      have hsame : Agree w w' d.messageID := hids (mem_singleton.mpr rfl)
      exact ⟨hclaim, hid, hsame.stands hs, os, by rw [hsame.2, hos], hn, hcertain⟩
    | delivered _ d => exact (hids (mem_singleton.mpr rfl)).stands h
    | unknown _ d => exact (hids (mem_singleton.mpr rfl)).stands h
    | listing => trivial
    | listed => trivial
    | routing => trivial
    | walking => trivial

/-- What a step of a process does: it touches one message, which it holds or which nobody
holds, and keeps that one safe. -/
structure Moves (p : Proc) (w w' : World) (o : Option Proc) : Prop where
  live : w'.live = w.live
  ok : ∀ p' ∈ o, p'.Ok w'
  touched : ∃ id, (∀ k, k ≠ id → Agree w w' k) ∧ Safe w' id ∧
    ((Agree w w' id ∧ ∀ p' ∈ o, p'.ids ⊆ p.ids) ∨ (id ∈ p.ids ∧ ∀ p' ∈ o, p'.ids ⊆ p.ids) ∨
      ((∃ m, w.rows.find? id = some m ∧ ¬Closed m) ∧ ∀ p' ∈ o, p'.ids ⊆ id :: p.ids))

variable {o : Option Proc}

theorem Moves.keeps (h : Moves p w w' o) (hS : ∀ k, Safe w k) :
    (∀ k, Safe w' k) ∧ (∀ p' ∈ o, p'.Ok w') ∧ ∀ q, q.Ok w → p.Beside q → q.Ok w' ∧ ∀ p' ∈ o, p'.Beside q := by
  obtain ⟨id, hothers, hsafe, hwhose⟩ := h.touched
  refine ⟨fun k => ?_, h.ok, fun q hq hbeside => ?_⟩
  · by_cases hk : k = id
    · rw [hk]
      exact hsafe
    · exact (hothers k hk).safe (hS k)
  · have hold (hid : id ∈ q.ids → Agree w w' id) : q.Ok w' := by
      refine hq.frame h.live fun k hk => ?_
      by_cases hkid : k = id
      · subst hkid
        exact hid hk
      · exact hothers k hkid
    have hsub (hids : ∀ p' ∈ o, p'.ids ⊆ p.ids) : ∀ p' ∈ o, p'.Beside q :=
      fun p' hp' k hk => hbeside k (hids p' hp' hk)
    rcases hwhose with ⟨hagree, hids⟩ | ⟨hmine, hids⟩ | ⟨⟨m, hm, hopen⟩, hids⟩
    · exact ⟨hold fun _ => hagree, hsub hids⟩
    · exact ⟨hold fun hid => absurd hid (hbeside id hmine), hsub hids⟩
    · -- nobody holds a claim on a row that is open
      have hfree : id ∉ q.ids := by
        intro hid
        obtain ⟨m', hm', hclosed⟩ := hq.closed hid
        rw [hm] at hm'
        cases hm'
        exact hopen hclosed
      refine ⟨hold fun hid => absurd hid hfree, fun p' hp' k hk => ?_⟩
      rcases mem_cons.mp (hids p' hp' hk) with rfl | hk
      · exact hfree
      · exact hbeside k hk

theorem agree_refl (w : World) (k : Bytes) : Agree w w k := ⟨rfl, rfl⟩

theorem moves_same (hS : ∀ k, Safe w k) (hok : ∀ p' ∈ o, p'.Ok w)
    (hids : ∀ p' ∈ o, p'.ids ⊆ p.ids) : Moves p w w o :=
  ⟨rfl, hok, [], fun k _ => agree_refl w k, hS [], .inl ⟨agree_refl w [], hids⟩⟩

variable {t t' : Rows} {walk : Walk} {now : Int} {sd : Sending}

theorem moves_row {m' : OutboxMessage} (hS : Safe w id)
    (hrow : ∀ k, t.find? k = if k = id then some m' else w.rows.find? k)
    (hm' : AllCertain w id ∨ Closed m') (hok : ∀ p' ∈ o, p'.Ok { w with rows := t })
    (hwhose : (id ∈ p.ids ∧ ∀ p' ∈ o, p'.ids ⊆ p.ids) ∨
      ((∃ m, w.rows.find? id = some m ∧ ¬Closed m) ∧ ∀ p' ∈ o, p'.ids ⊆ id :: p.ids)) :
    Moves p w { w with rows := t } o := by
  refine ⟨rfl, hok, id, fun k hk => ⟨by rw [hrow, if_neg hk], rfl⟩, ⟨hS.earlier, fun hall => ?_⟩, .inr hwhose⟩
  exact ⟨m', by rw [hrow, if_pos rfl], hm'.resolve_left hall⟩

variable {α : Type} {answer via : Bytes} {pass : Pass}

theorem exec_cases (op : Int → Rows → Except StoreError (α × Rows)) :
    ((w.exec i op).2 = w ∧ ∃ e, (w.exec i op).1 = .error e) ∨
      ∃ a t, op i.now w.rows = .ok (a, t) ∧ (w.exec i op).2 = { w with rows := t } ∧
        ((w.exec i op).1 = .ok a ∨ ∃ e, (w.exec i op).1 = .error e) := by
  rw [World.exec]
  cases hop : op i.now w.rows with
  | error e => exact .inl ⟨rfl, e, rfl⟩
  | ok r =>
    obtain ⟨a, t⟩ := r
    cases hfate : i.fate with
    | done => exact .inr ⟨a, t, rfl, rfl, .inl rfl⟩
    | failed => exact .inl ⟨rfl, _, rfl⟩
    | lost => exact .inr ⟨a, t, rfl, rfl, .inr ⟨_, rfl⟩⟩

/-! ### A pass -/

theorem ok_walking (hlive : w.live) (walk : Walk) : (Proc.pass (.walking walk)).Ok w := ⟨hlive, trivial⟩

theorem moves_settle (hS : ∀ k, Safe w k) (hlive : w.live) (hd : d ∈ p.claims)
    {op : Int → Rows → Except StoreError (α × Rows)}
    (hop : ∀ a t, op i.now w.rows = .ok (a, t) → ∃ m', (AllCertain w d.messageID ∨ Closed m') ∧
      ∀ k, t.find? k = if k = d.messageID then some m' else w.rows.find? k) :
    Moves p w (w.exec i op).2 (some (.pass (.walking walk))) := by
  have hids : ∀ p' ∈ some (Proc.pass (.walking walk)), p'.ids ⊆ p.ids := by
    rintro p' ⟨⟩
    exact nil_subset _
  rcases exec_cases (w := w) (i := i) op with ⟨hsame, -⟩ | ⟨a, t, heq, hrows, -⟩
  · rw [hsame]
    refine moves_same hS ?_ hids
    rintro p' ⟨⟩
    exact ok_walking hlive walk
  · rw [hrows]
    obtain ⟨m', hm', hrow⟩ := hop a t heq
    refine moves_row (hS d.messageID) hrow hm' ?_ (.inl ⟨List.mem_map_of_mem hd, hids⟩)
    rintro p' ⟨⟩
    exact ⟨hlive, trivial⟩

theorem recordDeliveryAttempt_eq_ok {permanent : Bool} {parkAfter : Nat} {r : Nat × Bool}
    (h : recordDeliveryAttempt d answer permanent parkAfter now t = .ok (r, t')) :
    ∃ m', ∀ k, t'.find? k = if k = d.messageID then some m' else t.find? k := by
  rw [recordDeliveryAttempt] at h
  split at h
  · cases h
  rename_i m hm
  obtain ⟨⟨⟨⟩, t''⟩, hsettle, h⟩ := bind_eq_ok.mp h
  cases h
  obtain ⟨m, -, -, hrow⟩ := settleDispatch_eq_ok hsettle
  exact ⟨_, hrow⟩

theorem markDispatchDelivered_eq_ok (h : markDispatchDelivered d via now t = .ok ((), t')) :
    ∃ m', m'.delivered ∧ inFlight m' = false ∧ ∀ k, t'.find? k = if k = d.messageID then some m'
      else t.find? k := by
  obtain ⟨m, -, -, hrow⟩ := settleDispatch_eq_ok h
  exact ⟨_, rfl, inFlight_settled _ _, hrow⟩

theorem claim_spec {may : OutboxMessage → Bool} (hmay : ∀ m, may m → ¬Closed m)
    (hS : ∀ k, Safe w k) (h : claim id may now w.rows = .ok (d, t)) :
    d.messageID = id ∧ (∃ m, w.rows.find? id = some m ∧ ¬Closed m) ∧ AllCertain w id ∧
      ∃ m', d.stands m' ∧ d.before.getD 0 ≤ m'.lastAttemptMs ∧
        ∀ k, t.find? k = if k = id then some m' else w.rows.find? k := by
  obtain ⟨m, hm, hm', rfl, hrow⟩ := claim_eq_ok h
  have hopen := hmay m hm'
  have hid := (find?_eq_some.mp hm).2
  refine ⟨rfl, ⟨m, hm, hopen⟩, ?_, claimed now m, ?_, ?_, hrow⟩
  · by_contra hall
    obtain ⟨m'', hm'', hclosed⟩ := (hS id).closed hall
    rw [hm] at hm''
    cases hm''
    exact hopen hclosed
  · exact stands_iff.mpr ⟨hid, rfl, inFlight_claimed now m⟩
  · have hland : ¬m.lastAttemptMs < m.dispatchedMs.getD 0 :=
      fun hlt => hopen (.inr (.inr (decide_eq_true hlt)))
    exact Int.not_lt.mp hland

theorem allCertain_hand_of_ne (hne : k ≠ id) :
    (w.hand id).handed k = w.handed k := Function.update_of_ne hne _ _

theorem stepSending_cases {r : World × Pass} (h : stepSending i w walk sd = r) :
    r = (w, .walking walk) ∨
      (∃ sd', sd'.claim = sd.claim ∧ sd'.message = sd.message ∧ r = (w, .sending walk sd')) ∨
      (∃ d answer permanent, sd.claim = some d ∧
        r = ((w.exec i (recordDeliveryAttempt d answer permanent maxDeliveryAttempts)).2, .walking walk)) ∨
      (∃ e, (w.exec i (claimDispatch sd.message.id)).1 = .error e ∧
        r = ((w.exec i (claimDispatch sd.message.id)).2, .walking walk)) ∨
      (∃ d sd', (w.exec i (claimDispatch sd.message.id)).1 = .ok d ∧ sd'.claim = some d ∧
      sd'.message = sd.message ∧
        sd.claim = none ∧ r = ((w.exec i (claimDispatch sd.message.id)).2, .sending walk sd')) ∨
      ∃ d way route, sd.claim = some d ∧
        r = (w.hand sd.message.id, .calling walk sd d way route (w.handed sd.message.id).length) := by
  rw [stepSending] at h
  -- with no way left, a claim is given back and its attempt recorded
  cases hways : sd.ways with
  | nil =>
    rw [hways] at h
    cases hd : sd.claim with
    | none =>
      rw [hd] at h
      exact .inl h.symm
    | some d =>
      rw [hd] at h
      exact .inr (.inr (.inl ⟨d, _, _, rfl, h.symm⟩))
  | cons way ways =>
    rw [hways] at h
    simp only at h
    split at h
    · refine .inr (.inl ⟨_, ?_, ?_, h.symm⟩) <;> rfl
    cases hroute : walk.routes.find? fun r => r.channel = way.channel with
    | none =>
      rw [hroute] at h
      refine .inr (.inl ⟨_, ?_, ?_, h.symm⟩) <;> rfl
    | some route =>
      rw [hroute] at h
      cases hd : sd.claim with
      | some d =>
        rw [hd] at h
        exact .inr (.inr (.inr (.inr (.inr ⟨d, way, route, rfl, h.symm⟩))))
      | none =>
        simp only [hd] at h
        split at h
        · exact .inl h.symm
        cases hexec : w.exec i (claimDispatch sd.message.id) with
        | mk a w₁ =>
          rw [hexec] at h
          cases a with
          | error e => exact .inr (.inr (.inr (.inl ⟨e, rfl, h.symm⟩)))
          | ok d => refine .inr (.inr (.inr (.inr (.inl ⟨d, _, rfl, ?_, ?_, rfl, h.symm⟩)))) <;> rfl

theorem moves_claimDispatch (hS : ∀ k, Safe w k) (hlive : w.live)
    (hpass : pass = .walking walk ∨ ∃ d sd', (w.exec i (claimDispatch sd.message.id)).1 = .ok d ∧
      sd'.claim = some d ∧ sd'.message = sd.message ∧ pass = .sending walk sd') :
    Moves p w (w.exec i (claimDispatch sd.message.id)).2 (some (.pass pass)) := by
  rcases exec_cases (w := w) (i := i) (claimDispatch sd.message.id)
    with ⟨hsame, e, herror⟩ | ⟨d, t, heq, hrows, hanswer⟩
  · rw [hsame]
    refine moves_same hS ?_ ?_
    all_goals
      rcases hpass with rfl | ⟨d, sd', hok, -⟩
      · rintro p' ⟨⟩
        first
          | exact ok_walking hlive walk
          | exact nil_subset _
      · rw [herror] at hok
        cases hok
  · obtain ⟨hid, hopen, hall, m', hstands, -, hrow⟩ := claim_spec (fun m => not_closed_of_walkable) hS heq
    rw [hrows]
    refine moves_row (hS sd.message.id) hrow (.inl hall) ?_ (.inr ⟨hopen, ?_⟩)
    · rintro p' ⟨⟩
      refine ⟨hlive, ?_⟩
      rcases hpass with rfl | ⟨d', sd', hok, hclaim, hmessage, rfl⟩
      · trivial
      · intro d'' hd''
        rw [hclaim] at hd''
        cases hd''
        rcases hanswer with hanswer | ⟨e, hanswer⟩ <;> rw [hanswer] at hok <;> cases hok
        refine ⟨hid.trans (by rw [hmessage]), ⟨m', ?_, hstands⟩, ?_⟩
        · rw [hrow, if_pos hid]
        · rw [hid]
          exact hall
    · rintro p' ⟨⟩
      rcases hpass with rfl | ⟨d', sd', hok, hclaim, -, rfl⟩
      · exact nil_subset _
      · rcases hanswer with hanswer | ⟨e, hanswer⟩ <;> rw [hanswer] at hok <;> cases hok
        intro k hk
        simp only [Proc.ids, Proc.claims, Pass.claims, hclaim, toList_some, map_cons, map_nil,
          mem_singleton] at hk
        rw [hk, hid]
        exact mem_cons_self

variable {way : Contact} {route : ChannelRoute}

theorem moves_hand (hlive : w.live) (hclaim : sd.claim = some d) (hid : d.messageID = sd.message.id)
    (hstands : Stands w d) (hall : AllCertain w d.messageID) :
    Moves (.pass (.sending walk sd)) w (w.hand sd.message.id)
      (some (.pass (.calling walk sd d way route (w.handed sd.message.id).length))) := by
  rw [← hid]
  have hhanded : (w.hand d.messageID).handed _ = _ := Function.update_self ..
  have hmine : d.messageID ∈ (Proc.pass (.sending walk sd)).ids := by
    simp [Proc.ids, Proc.claims, Pass.claims, hclaim]
  refine ⟨rfl, ?_, d.messageID, fun k hk => ⟨rfl, allCertain_hand_of_ne hk⟩, ⟨?_, fun _ => ?_⟩,
    .inr (.inl ⟨hmine, ?_⟩)⟩
  · rintro p' ⟨⟩
    exact ⟨hlive, hclaim, hid, hstands, w.handed d.messageID, hhanded, rfl, hall⟩
  · rw [hhanded, dropLast_concat]
    exact hall
  · obtain ⟨m, hm, hm'⟩ := hstands
    exact ⟨m, hm, closed_of_stands hm'⟩
  · rintro p' ⟨⟩
    intro k hk
    simp only [Proc.ids, Proc.claims, Pass.claims, map_cons, map_nil, mem_singleton] at hk
    rw [hk]
    exact hmine

theorem moves_sending (hS : ∀ k, Safe w k) (h : (Proc.pass (.sending walk sd)).Ok w) :
    Moves (.pass (.sending walk sd)) w (stepSending i w walk sd).1
      (some (.pass (stepSending i w walk sd).2)) := by
  obtain ⟨hlive, hclaim⟩ := h
  rcases @stepSending_cases w i walk sd _ rfl with
    heq | ⟨sd', hsame, hmessage, heq⟩ | ⟨d, answer, permanent, hd, heq⟩ | ⟨e, -, heq⟩ |
      ⟨d, sd', hok, hd, hmessage, -, heq⟩ | ⟨d, way, route, hd, heq⟩ <;> rw [heq]
  · refine moves_same hS ?_ ?_ <;> rintro p' ⟨⟩
    · exact ok_walking hlive walk
    · exact nil_subset _
  · refine moves_same hS ?_ ?_ <;> rintro p' ⟨⟩
    · refine ⟨hlive, fun d hd => ?_⟩
      rw [hmessage]
      exact hclaim d (hsame ▸ hd)
    · simp [Proc.ids, Proc.claims, Pass.claims, hsame]
  · have hmem : d ∈ (Proc.pass (.sending walk sd)).claims := by simp [Proc.claims, Pass.claims, hd]
    refine moves_settle hS hlive hmem fun a t heq => ?_
    obtain ⟨m', hrow⟩ := recordDeliveryAttempt_eq_ok heq
    exact ⟨m', .inl (hclaim d hd).2.2, hrow⟩
  · exact moves_claimDispatch hS hlive (.inl rfl)
  · exact moves_claimDispatch hS hlive (.inr ⟨d, sd', hok, hd, hmessage, rfl⟩)
  · obtain ⟨hid, hstands, hall⟩ := hclaim d hd
    exact moves_hand hlive hd hid hstands hall

theorem stepCalling_cases {n : Nat} {r : World × Pass} (h : stepCalling i w walk sd d way route n = r) :
    (∃ v sd', Certain (some v) ∧ sd'.claim = sd.claim ∧ sd'.message = sd.message ∧
        r = (w.answer sd.message.id n v, .sending walk sd')) ∨
      ∃ v pass, r = (w.answer sd.message.id n v, pass) ∧
        ((∃ via, pass = .delivered walk d via) ∨ ∃ via answer, pass = .unknown walk d via answer) := by
  rw [stepCalling] at h
  cases hv : classifySend i.result i.execErr with
  | delivered =>
    rw [hv] at h
    exact .inr ⟨_, _, h.symm, .inl ⟨_, rfl⟩⟩
  | unknown =>
    rw [hv] at h
    exact .inr ⟨_, _, h.symm, .inr ⟨_, _, rfl⟩⟩
  | neverHere =>
    rw [hv] at h
    refine .inl ⟨_, _, .inr rfl, ?_, ?_, h.symm⟩ <;> rfl
  | notSent =>
    rw [hv] at h
    refine .inl ⟨_, _, .inl rfl, ?_, ?_, h.symm⟩ <;> rfl

theorem moves_calling {n : Nat} (h : (Proc.pass (.calling walk sd d way route n)).Ok w) :
    Moves (.pass (.calling walk sd d way route n)) w (stepCalling i w walk sd d way route n).1
      (some (.pass (stepCalling i w walk sd d way route n).2)) := by
  obtain ⟨hlive, hclaim, hid, hstands, os, hos, rfl, hcertain⟩ := h
  -- the call that answers is the last
  have hanswer (v : SendVerdict) : (w.answer d.messageID os.length v).handed d.messageID = os ++
      [some v] := by
    refine (Function.update_self ..).trans ?_
    rw [hos, set_append_right _ _ (le_refl _), Nat.sub_self]
    rfl
  have hmoves {v : SendVerdict} {pass : Pass} (hok : pass.Ok (w.answer d.messageID os.length v))
      (hids : (Proc.pass pass).ids ⊆ [d.messageID]) :
      Moves (.pass (.calling walk sd d way route os.length)) w (w.answer d.messageID os.length v)
        (some (.pass pass)) := by
    refine ⟨rfl, ?_, d.messageID, fun k hk => ⟨rfl, Function.update_of_ne hk _ _⟩, ⟨?_, fun _ => ?_⟩,
      .inr (.inl ⟨mem_singleton.mpr rfl, ?_⟩)⟩
    · rintro p' ⟨⟩
      exact ⟨hlive, hok⟩
    · rw [hanswer, dropLast_concat]
      exact hcertain
    · obtain ⟨m, hm, hm'⟩ := hstands
      exact ⟨m, hm, closed_of_stands hm'⟩
    · rintro p' ⟨⟩
      exact hids
  rcases @stepCalling_cases w d i walk sd way route os.length _ rfl with
    ⟨v, sd', hv, hsame, hmessage, heq⟩ | ⟨v, pass, heq, hpass⟩ <;> rw [heq, ← hid]
  · refine hmoves (fun d' hd' => ?_) ?_
    · rw [hsame, hclaim] at hd'
      cases hd'
      refine ⟨by rw [hmessage, hid], hstands, ?_⟩
      rw [AllCertain, hanswer]
      exact forall_mem_append.mpr ⟨hcertain, forall_mem_singleton.mpr hv⟩
    · simp [Proc.ids, Proc.claims, Pass.claims, hsame, hclaim]
  · rcases hpass with ⟨via, rfl⟩ | ⟨via, answer, rfl⟩
    · exact hmoves hstands (List.Subset.refl _)
    · exact hmoves hstands (List.Subset.refl _)

theorem moves_pass {sameName : Bytes → Bytes → Bool} (hS : ∀ k, Safe w k) (h : (Proc.pass pass).Ok w) :
    Moves (.pass pass) w (stepPass sameName i w pass).1 ((stepPass sameName i w pass).2.map .pass) := by
  have hlive := h.1
  -- the steps before and between the messages
  have hquiet {o : Option Pass} (ho : ∀ p' ∈ o, p'.claims = [] ∧ ∀ w, p'.Ok w) : Moves
      (.pass pass) w w (o.map .pass) := by
    refine moves_same hS ?_ ?_ <;>
    · intro p' hp'
      obtain ⟨pass', hpass', rfl⟩ := map_eq_some_iff.mp hp'
      obtain ⟨hclaims, hok⟩ := ho pass' hpass'
      first
        | exact ⟨hlive, hok w⟩
        | simp [Proc.ids, Proc.claims, hclaims]
  cases pass with
  | listing =>
    rw [stepPass]
    split_ifs
    · exact hquiet (by rintro p' ⟨⟩; exact ⟨rfl, fun _ => trivial⟩)
    · exact hquiet (by rintro p' ⟨⟩)
  | listed pending =>
    rw [stepPass]
    split_ifs <;> exact hquiet (by rintro p' ⟨⟩; exact ⟨rfl, fun _ => trivial⟩)
  | routing pending =>
    rw [stepPass]
    split_ifs
    · exact hquiet (by rintro p' ⟨⟩)
    · exact hquiet (by rintro p' ⟨⟩; exact ⟨rfl, fun _ => trivial⟩)
  | walking walk =>
    rw [stepPass]
    cases walk.todo with
    | nil => exact hquiet (by rintro p' ⟨⟩)
    | cons m todo =>
      split_ifs
      · exact hquiet (by rintro p' ⟨⟩)
      · exact hquiet (by rintro p' ⟨⟩; exact ⟨rfl, fun _ => nofun⟩)
  | sending walk sd => exact moves_sending hS h
  | calling walk sd d way route n => exact moves_calling h
  | delivered walk d via =>
    refine moves_settle hS hlive (mem_singleton.mpr rfl) fun a t heq => ?_
    obtain ⟨m', hm', -, hrow⟩ := markDispatchDelivered_eq_ok heq
    exact ⟨m', .inr (.inl hm'), hrow⟩
  | unknown walk d via answer =>
    refine moves_settle hS hlive (mem_singleton.mpr rfl) fun a t heq => ?_
    obtain ⟨m, -, -, hrow⟩ := settleDispatch_eq_ok heq
    exact ⟨_, .inr (.inr (.inl ⟨rfl, rfl⟩)), hrow⟩

/-! ### A page -/

theorem PageHeld.closed (h : PageHeld w d) : ∃ m, w.rows.find? d.messageID = some m ∧ Closed m := by
  obtain ⟨m, hm, ⟨hs, -⟩ | ⟨-, hclosed⟩⟩ := h
  · exact ⟨m, hm, closed_of_stands hs⟩
  · exact ⟨m, hm, hclosed.elim .inl fun h => .inr (.inl h)⟩

variable {claims : List Dispatch}

theorem moves_claimForPage {todo : List OutboxMessage} (hS : ∀ k, Safe w k)
    (h : (Page.claiming (m :: todo) claims).Ok w) :
    Moves (.page (.claiming (m :: todo) claims)) w (stepPage i w (.claiming (m :: todo) claims)).1
      ((stepPage i w (.claiming (m :: todo) claims)).2.map .page) := by
  obtain ⟨hnodup, hheld⟩ := h
  rw [stepPage]
  cases hexec : w.exec i (claimForPage m.id) with
  | mk a w₁ =>
    have hcases := exec_cases (w := w) (i := i) (claimForPage m.id)
    rw [hexec] at hcases
    rcases hcases with ⟨hsame, e, herror⟩ | ⟨d, t, heq, hrows, hanswer⟩
    · simp only at hsame herror
      rw [hsame, herror]
      refine moves_same hS ?_ ?_ <;> rintro p' ⟨⟩
      · exact ⟨hnodup, hheld⟩
      · exact List.Subset.refl _
    · simp only at hrows hanswer
      obtain ⟨hid, hopen, hall, m', hstands, hbefore, hrow⟩ :=
        claim_spec (fun m => not_closed_of_pageMayCarry) hS heq
      -- what the page holds already is closed
      have hfresh : ∀ e ∈ claims, e.messageID ≠ m.id := by
        intro e he hsame
        obtain ⟨r, hr, hclosed⟩ := (hheld e he).closed
        obtain ⟨r', hr', hopen⟩ := hopen
        rw [hsame, hr'] at hr
        cases hr
        exact hopen hclosed
      have hagree : ∀ e ∈ claims, PageHeld { w with rows := t } e := by
        intro e he
        have hsame : Agree w { w with rows := t } e.messageID := ⟨by rw [hrow, if_neg (hfresh e he)], rfl⟩
        exact hsame.pageHeld (hheld e he)
      rw [hrows]
      rcases hanswer with rfl | ⟨e, rfl⟩
      · refine moves_row (hS m.id) hrow (.inl hall) ?_ (.inr ⟨hopen, ?_⟩) <;> rintro p' ⟨⟩
        · refine ⟨?_, forall_mem_append.mpr ⟨hagree, forall_mem_singleton.mpr ?_⟩⟩
          · simp only [Page.claims, map_append]
            refine nodup_append.mpr ⟨hnodup, nodup_singleton _, ?_⟩
            rintro k hk _ hk' rfl
            obtain ⟨e, he, rfl⟩ := List.mem_map.mp hk
            exact hfresh e he ((mem_singleton.mp hk').trans hid)
          · refine ⟨m', by rw [hrow, if_pos hid], .inl ⟨hstands, hbefore, ?_⟩⟩
            rw [hid]
            exact hall
        · intro k hk
          simp only [Proc.ids, Proc.claims, Page.claims, map_append, map_cons, map_nil, mem_append,
            mem_singleton] at hk ⊢
          rcases hk with hk | rfl
          · exact mem_cons_of_mem _ hk
          · rw [hid]
            exact mem_cons_self
      · refine moves_row (hS m.id) hrow (.inl hall) ?_ (.inr ⟨hopen, ?_⟩) <;> rintro p' ⟨⟩
        · exact ⟨hnodup, hagree⟩
        · exact subset_cons_self _ _

theorem moves_settling {shown : Bool} (hS : ∀ k, Safe w k) (h : (Page.settling shown (d :: claims)).Ok w)
    {op : Int → Rows → Except StoreError (Unit × Rows)}
    (hop : ∀ t, op i.now w.rows = .ok ((), t) → ∃ m', (AllCertain w d.messageID ∨ Closed m') ∧
      ∀ k, t.find? k = if k = d.messageID then some m' else w.rows.find? k) :
    Moves (.page (.settling shown (d :: claims))) w (w.exec i op).2
      (some (.page (.settling shown claims))) := by
  obtain ⟨hnodup, hheld⟩ := h
  simp only [Page.claims, map_cons, nodup_cons] at hnodup
  obtain ⟨-, hrest⟩ := forall_mem_cons.mp hheld
  rcases exec_cases (w := w) (i := i) op with ⟨hsame, -⟩ | ⟨⟨⟩, t, heq, hrows, -⟩
  · rw [hsame]
    refine moves_same hS ?_ ?_ <;> rintro p' ⟨⟩
    · exact ⟨hnodup.2, hrest⟩
    · exact subset_cons_self _ _
  · rw [hrows]
    obtain ⟨m', hm', hrow⟩ := hop t heq
    refine moves_row (hS d.messageID) hrow hm' ?_ (.inl ⟨mem_cons_self, ?_⟩) <;> rintro p' ⟨⟩
    · refine ⟨hnodup.2, fun e he => ?_⟩
      have hne : e.messageID ≠ d.messageID := fun hsame => hnodup.1 (hsame ▸ List.mem_map_of_mem he)
      have hsame : Agree w { w with rows := t } e.messageID := ⟨by rw [hrow, if_neg hne], rfl⟩
      exact hsame.pageHeld (hrest e he)
    · exact subset_cons_self _ _

theorem moves_page {page : Page} (hS : ∀ k, Safe w k) (h : page.Ok w) :
    Moves (.page page) w (stepPage i w page).1 ((stepPage i w page).2.map .page) := by
  cases page with
  | listing =>
    rw [stepPage]
    split_ifs
    · refine moves_same hS ?_ ?_ <;> rintro p' ⟨⟩
      · exact ⟨nodup_nil, nofun⟩
      · exact nil_subset _
    · refine moves_same hS ?_ ?_ <;> rintro p' ⟨⟩
  | claiming todo claims =>
    cases todo with
    | nil =>
      refine moves_same hS ?_ ?_ <;> rintro p' ⟨⟩
      · exact h
      · exact List.Subset.refl _
    | cons m todo => exact moves_claimForPage hS h
  | settling shown claims =>
    cases claims with
    | nil => refine moves_same hS ?_ ?_ <;> rintro p' ⟨⟩
    | cons d claims =>
      cases shown with
      | true =>
        refine moves_settling hS h fun t heq => ?_
        obtain ⟨m', hm', -, hrow⟩ := markDispatchDelivered_eq_ok heq
        exact ⟨m', .inr (.inl hm'), hrow⟩
      | false =>
        change Moves _ w (w.exec i fun _ => releaseDispatch d).2 (some (.page (.settling false claims)))
        refine moves_settling hS h fun t heq => ?_
        obtain ⟨m, hm, hstands, hrow⟩ := releaseDispatch_eq_ok heq
        refine ⟨_, .inl ?_, hrow⟩
        -- a claim that can be given back was not settled by a boot
        obtain ⟨m', hm', ⟨-, -, hall⟩ | ⟨hland, -⟩⟩ := h.2 d mem_cons_self
        · exact hall
        · rw [hm] at hm'
          cases hm'
          rw [(stands_iff.mp hstands).2.2] at hland
          cases hland

/-! ### The boot and new messages -/

structure Alike (m m' : OutboxMessage) : Prop where
  id : m'.id = m.id
  delivered : m'.delivered = m.delivered
  parked : m'.parked = m.parked
  effect : m'.effect = m.effect
  lastAttemptMs : m'.lastAttemptMs = m.lastAttemptMs
  dispatchedMs : m'.dispatchedMs = m.dispatchedMs

variable {m' : OutboxMessage}

theorem Alike.inFlight (h : Alike m m') : inFlight m' = inFlight m := by
  rw [Outbox.inFlight, Outbox.inFlight, h.lastAttemptMs, h.dispatchedMs]

theorem Alike.stands (h : Alike m m') : d.stands m' = d.stands m := by
  rw [Dispatch.stands, Dispatch.stands, h.id, h.dispatchedMs, h.inFlight]

def Laid (m : OutboxMessage) : Prop := inFlight m = false ∧ m.parked ∧ m.effect = .unknown

theorem Closed.mono (h : Closed m) (hm : Alike m m' ∨ Laid m') : Closed m' := by
  rcases hm with hm | ⟨-, hparked, heffect⟩
  · rwa [Closed, hm.delivered, hm.parked, hm.effect, hm.inFlight]
  · exact .inr (.inl ⟨hparked, heffect⟩)

/-- Every row stays as it is for claims, or is parked by a boot. -/
def Changes (w w' : World) : Prop :=
  w'.handed = w.handed ∧ ∀ k m, w.rows.find? k = some m → ∃ m', w'.rows.find? k = some m' ∧
    (Alike m m' ∨ Laid m')

theorem Changes.safe (h : Changes w w') (hs : Safe w k) : Safe w' k := by
  refine ⟨?_, fun hall => ?_⟩
  · rw [h.1]
    exact hs.earlier
  · rw [AllCertain, h.1] at hall
    obtain ⟨m, hm, hclosed⟩ := hs.closed hall
    obtain ⟨m', hm', hkept⟩ := h.2 k m hm
    exact ⟨m', hm', hclosed.mono hkept⟩

theorem Changes.page {page : Page} (h : Changes w w') (hp : page.Ok w) : page.Ok w' := by
  refine ⟨hp.1, fun d hd => ?_⟩
  obtain ⟨m, hm, hheld⟩ := hp.2 d hd
  obtain ⟨m', hm', hkept | hlaid⟩ := h.2 _ m hm
  · refine ⟨m', hm', ?_⟩
    rw [hkept.stands, hkept.lastAttemptMs, hkept.inFlight, hkept.delivered, hkept.parked,
      hkept.effect, AllCertain, h.1]
    exact hheld
  · exact ⟨m', hm', .inr ⟨hlaid.1, .inr hlaid.2⟩⟩

theorem changes_update {c : OutboxMessage → Bool} {f : OutboxMessage → OutboxMessage}
    (hhanded : w'.handed = w.handed)
    (hrows : ∀ k, w'.rows.find? k = (w.rows.find? k).map fun r => if c r then f r else r)
    (hkept : ∀ r, Alike r (f r) ∨ Laid (f r)) : Changes w w' := by
  refine ⟨hhanded, fun k m hm => ?_⟩
  rw [hrows, hm, map_some]
  refine ⟨_, rfl, ?_⟩
  split_ifs
  · exact hkept m
  · exact .inl ⟨rfl, rfl, rfl, rfl, rfl, rfl⟩

theorem laid_settled (hparked : m.parked) (heffect : m.effect = .unknown) : Laid (settled now m) :=
  ⟨inFlight_settled now m, hparked, heffect⟩

theorem Changes.boot (h : Changes w w') (hboot : w.live = false) (hS : ∀ k, Safe w k) :
    (∀ k, Safe w' k) ∧ ∀ q : Proc, q.Ok w → q.Ok w' := by
  refine ⟨fun k => h.safe (hS k), fun q hq => ?_⟩
  cases q with
  | pass =>
    rw [hq.1] at hboot
    cases hboot
  | page => exact h.page hq

theorem Proc.Ok.alike (h : q.Ok w) (hlive : w'.live = w.live) (hhanded : w'.handed = w.handed)
    (hrows : ∀ k m, w.rows.find? k = some m → ∃ m', w'.rows.find? k = some m' ∧ Alike m m') : q.Ok w' := by
  have hstands {d : Dispatch} (hs : Stands w d) : Stands w' d := by
    obtain ⟨m, hm, hs⟩ := hs
    obtain ⟨m', hm', halike⟩ := hrows _ m hm
    exact ⟨m', hm', by rw [halike.stands]; exact hs⟩
  have hcertain {k : Bytes} (hall : AllCertain w k) : AllCertain w' k := by
    rw [AllCertain, hhanded]
    exact hall
  cases q with
  | page page =>
    refine Changes.page ⟨hhanded, fun k m hm => ?_⟩ h
    obtain ⟨m', hm', halike⟩ := hrows k m hm
    exact ⟨m', hm', .inl halike⟩
  | pass pass =>
    refine ⟨hlive ▸ h.1, ?_⟩
    obtain ⟨-, h⟩ := h
    cases pass with
    | sending _ s =>
      intro d hd
      obtain ⟨hid, hs, hall⟩ := h d hd
      exact ⟨hid, hstands hs, hcertain hall⟩
    | calling _ s d =>
      obtain ⟨hclaim, hid, hs, os, hos, hn, hos'⟩ := h
      exact ⟨hclaim, hid, hstands hs, os, by rw [hhanded, hos], hn, hos'⟩
    | delivered _ d => exact hstands h
    | unknown _ d => exact hstands h
    | listing => trivial
    | listed => trivial
    | routing => trivial
    | walking => trivial

theorem changes_repair (w : World) (id recipient channel : Bytes) :
    ({ w with rows := repairHeldMessage id recipient channel w.rows } : World).handed = w.handed ∧
      ∀ k m, w.rows.find? k = some m →
        ∃ m', (repairHeldMessage id recipient channel w.rows).find? k = some m' ∧ Alike m m' := by
  refine ⟨rfl, fun k m hm => ?_⟩
  rw [repairHeldMessage, find?_update, hm, map_some]
  refine ⟨_, rfl, ?_⟩
  split_ifs <;> exact ⟨rfl, rfl, rfl, rfl, rfl, rfl⟩

theorem env_keeps (hS : ∀ k, Safe w k) (h : Env w w') : (∀ k, Safe w' k) ∧ ∀ q : Proc, q.Ok w → q.Ok w' := by
  cases h with
  | @insert m rows hm hinsert =>
    obtain ⟨hfree, rfl⟩ := insert?_eq_some.mp hinsert
    have hnone := Table.find?_eq_none.mpr hfree
    have hrow (k : Bytes) : (w.rows.push m hfree).find? k = if k = m.id then some m else w.rows.find? k :=
      find?_push hfree k
    refine ⟨fun k => ⟨(hS k).earlier, fun hall => ?_⟩, fun q hq => ?_⟩
    · obtain ⟨r, hr, hclosed⟩ := (hS k).closed hall
      have hk : k ≠ m.id := by
        rintro rfl
        rw [hnone] at hr
        cases hr
      exact ⟨r, by rw [hrow, if_neg hk]; exact hr, hclosed⟩
    · refine hq.frame rfl fun k hk => ⟨?_, rfl⟩
      obtain ⟨r, hr, -⟩ := hq.closed hk
      have hk : k ≠ m.id := by
        rintro rfl
        rw [hnone] at hr
        cases hr
      rw [hrow, if_neg hk]
  | repair id recipient channel =>
    obtain ⟨hhanded, hrows⟩ := changes_repair w id recipient channel
    refine ⟨fun k => Changes.safe ⟨hhanded, fun k m hm => ?_⟩ (hS k), fun q hq => ?_⟩
    · obtain ⟨m', hm', halike⟩ := hrows k m hm
      exact ⟨m', hm', .inl halike⟩
    · exact hq.alike rfl rfl hrows
  | restore answer now until' hboot =>
    refine Changes.boot ?_ hboot hS
    refine changes_update rfl (fun k => find?_update (by intro; rfl) k) fun r => .inr ?_
    exact laid_settled rfl rfl
  | boot answer now fate hboot =>
    refine Changes.boot ?_ hboot hS
    have hsame : Changes w { w with live := true } :=
      ⟨rfl, fun k m hm => ⟨m, hm, .inl ⟨rfl, rfl, rfl, rfl, rfl, rfl⟩⟩⟩
    have hlaid : Changes w
        { w with rows := settleInterruptedDispatches answer now w.rows, live := true } := by
      refine changes_update rfl (fun k => find?_update (by intro; rfl) k) fun r => .inr ?_
      exact laid_settled rfl rfl
    cases fate with
    | done => exact hlaid
    | failed => exact hsame
    | lost => exact hlaid

end

end AiiOs.Outbox
