import AiiOs.Outbox.Delivery

/-! At most one call may have sent a message, over every run of the passes, the pages, the
boots and the stops. -/

namespace AiiOs.Outbox
open Lib List Option

variable {sameName : Bytes → Bytes → Bool} {w w' : World} {id : Bytes} {p : Proc} {i : Input}
  {o : Option Proc}
  {x y : Procs World Proc}

/-! ### The invariant over a run -/

theorem keeps : Procs.Keeps (rules sameName) (fun w => ∀ k, Safe w k) (fun w p => p.Ok w) Proc.Beside where
  symm _ _ h k hq hp := h k hp hq
  start w w' p hS hstart := by
    obtain ⟨rfl, ⟨rfl, hlive⟩ | rfl⟩ := hstart
    · exact ⟨hS, ⟨hlive, trivial⟩, fun q hq => ⟨hq, nofun⟩⟩
    · exact ⟨hS, ⟨nodup_nil, nofun⟩, fun q hq => ⟨hq, nofun⟩⟩
  act w p w' o hS hp hact := by
    obtain ⟨i, hstep⟩ := hact
    have hmoves : Moves p w (stepProc sameName i w p).1 (stepProc sameName i w p).2 := by
      cases p with
      | pass pass => exact moves_pass hS hp
      | page page => exact moves_page hS hp
    rw [hstep] at hmoves
    exact hmoves.keeps hS
  env w w' hS henv := env_keeps hS henv
  stop w w' hS hstop := by
    rw [hstop]
    exact fun k => ⟨(hS k).earlier, (hS k).closed⟩

theorem safe_start (rows : Rows) (k : Bytes) : Safe (World.start rows) k := ⟨nofun, fun h => absurd nofun h⟩

/-! ### A message that may have been sent -/

def Proc.Calls (id : Bytes) : Proc → Prop
  | .pass (.calling _ _ d _ _ _) => d.messageID = id
  | _ => False

/-- The last call that had the message did not certainly fail, and nobody waits for it. -/
def Spent (x : Procs World Proc) (id : Bytes) : Prop :=
  (∃ o, (x.shared.handed id).getLast? = some o ∧ ¬Certain o) ∧ ∀ p ∈ x.running, ¬p.Calls id

theorem Spent.not_allCertain (h : Spent x id) : ¬AllCertain x.shared id := by
  obtain ⟨⟨o, ho, hcertain⟩, -⟩ := h
  exact fun hall => hcertain (hall o (mem_of_getLast? ho))

theorem pass_leaves {pass : Pass} (hp : (Proc.pass pass).Ok w) (hall : ¬AllCertain w id)
    (hcalls : ¬(Proc.pass pass).Calls id) : (stepPass sameName i w pass).1.handed id = w.handed id ∧
      ∀ p' ∈ (stepPass sameName i w pass).2, ¬(Proc.pass p').Calls id := by
  obtain ⟨-, hp⟩ := hp
  cases pass with
  | listing =>
    rw [stepPass]
    split_ifs <;> refine ⟨rfl, ?_⟩ <;> rintro p' ⟨⟩
    exact not_false
  | listed pending =>
    rw [stepPass]
    split_ifs <;> refine ⟨rfl, ?_⟩ <;> rintro p' ⟨⟩ <;> exact not_false
  | routing pending =>
    rw [stepPass]
    split_ifs <;> refine ⟨rfl, ?_⟩ <;> rintro p' ⟨⟩
    exact not_false
  | walking walk =>
    rw [stepPass]
    cases walk.todo with
    | nil =>
      refine ⟨rfl, ?_⟩
      rintro p' ⟨⟩
    | cons m todo =>
      split_ifs <;> refine ⟨rfl, ?_⟩ <;> rintro p' ⟨⟩
      exact not_false
  | delivered walk d via =>
    refine ⟨rfl, ?_⟩
    rintro p' ⟨⟩
    exact not_false
  | unknown walk d via answer =>
    refine ⟨rfl, ?_⟩
    rintro p' ⟨⟩
    exact not_false
  | sending walk sd =>
    change (stepSending i w walk sd).1.handed id = _ ∧ ∀ p' ∈ some (stepSending i w walk sd).2,
      ¬(Proc.pass p').Calls id
    rcases stepSending_cases (r := stepSending i w walk sd) rfl with
      h | ⟨sd', -, -, h⟩ | ⟨d, answer, permanent, -, h⟩ | ⟨e, -, h⟩ | ⟨d, sd', -, -, -, -, h⟩ | ⟨d,
        way, route, hclaim, h⟩ <;>
      rw [h]
    iterate 5
      refine ⟨rfl, ?_⟩
      rintro p' ⟨⟩
      exact not_false
    -- a call is made only while all earlier ones certainly failed
    obtain ⟨hid, -, hcertain⟩ := hp d hclaim
    have hne : d.messageID ≠ id := by
      rintro rfl
      exact hall hcertain
    refine ⟨allCertain_hand_of_ne (hid ▸ hne.symm), ?_⟩
    rintro p' ⟨⟩
    exact hne
  | calling walk sd d way route n =>
    change (stepCalling i w walk sd d way route n).1.handed id = _ ∧
      ∀ p' ∈ some (stepCalling i w walk sd d way route n).2, ¬(Proc.pass p').Calls id
    obtain ⟨-, hid, -⟩ := hp
    have hne : id ≠ sd.message.id := fun h => hcalls (hid.trans h.symm)
    rcases stepCalling_cases (r := stepCalling i w walk sd d way route n) rfl
      with ⟨v, sd', -, -, -, h⟩ | ⟨v, pass, h, ⟨via, rfl⟩ | ⟨via, answer, rfl⟩⟩ <;> rw [h] <;>
    · refine ⟨Function.update_of_ne hne _ _, ?_⟩
      rintro p' ⟨⟩
      exact not_false

theorem page_leaves (page : Page) : (stepPage i w page).1.handed = w.handed := by
  cases page with
  | listing =>
    rw [stepPage]
    split_ifs <;> rfl
  | claiming todo claims =>
    cases todo with
    | nil => rfl
    | cons m todo =>
      rw [stepPage]
      cases hexec : w.exec i (claimForPage m.id) with
      | mk a w₁ =>
        have hw₁ : w₁ = (w.exec i (claimForPage m.id)).2 := by rw [hexec]
        cases a <;> rw [hw₁] <;> rfl
  | settling shown claims =>
    cases claims with
    | nil => rfl
    | cons d claims =>
      rw [stepPage]
      split_ifs <;> rfl

theorem proc_leaves (hp : p.Ok w) (hall : ¬AllCertain w id) (hcalls : ¬p.Calls id)
    (h : stepProc sameName i w p = (w', o)) : w'.handed id = w.handed id ∧ ∀ p' ∈ o, ¬p'.Calls id := by
  cases p with
  | pass pass =>
    cases h
    obtain ⟨hhanded, hnext⟩ := @pass_leaves sameName _ _ i _ hp hall hcalls
    refine ⟨hhanded, fun p' hp' => ?_⟩
    obtain ⟨pass', hpass', rfl⟩ := map_eq_some_iff.mp hp'
    exact hnext pass' hpass'
  | page page =>
    cases h
    refine ⟨congrFun (page_leaves page) id, fun p' hp' => ?_⟩
    obtain ⟨page', -, rfl⟩ := map_eq_some_iff.mp hp'
    exact not_false

section
variable (h : Spent x id) (hx : Procs.Holds (fun w => ∀ k, Safe w k) (fun w p => p.Ok w) Proc.Beside x)
include h hx

theorem Spent.step (hstep : Procs.Step (rules sameName) x y) :
    y.shared.handed id = x.shared.handed id ∧ Spent y id := by
  have hall := h.not_allCertain
  obtain ⟨hlast, hnone⟩ := h
  -- what is left to show of a step
  have hsame {y : Procs World Proc} (hhanded : y.shared.handed id = x.shared.handed id)
      (hcalls : ∀ p ∈ y.running, ¬p.Calls id) : y.shared.handed id = x.shared.handed id ∧ Spent y id :=
    ⟨hhanded, by rw [hhanded]; exact hlast, hcalls⟩
  cases hstep with
  | start hstart =>
    obtain ⟨rfl, ⟨rfl, -⟩ | rfl⟩ := hstart
    · exact hsame rfl (forall_mem_cons.mpr ⟨not_false, hnone⟩)
    · exact hsame rfl (forall_mem_cons.mpr ⟨not_false, hnone⟩)
  | @act _ _ p o before after hact =>
    obtain ⟨i, hact⟩ := hact
    have hmem : p ∈ before ++ p :: after := mem_append_right _ mem_cons_self
    obtain ⟨hhanded, hnext⟩ := proc_leaves (hx.each p hmem) hall (hnone p hmem) hact
    exact hsame hhanded (Procs.forall_running hnone hnext)
  | env henv => exact hsame (by cases henv <;> rfl) hnone
  | stop hstop =>
    rw [hstop]
    exact hsame rfl fun p hp => absurd hp not_mem_nil

theorem Spent.reaches (hy : Procs.Reaches (rules sameName) x y) :
    y.shared.handed id = x.shared.handed id ∧ Spent y id := by
  induction hy with
  | refl => exact ⟨rfl, h⟩
  | tail hreached hstep ih =>
    obtain ⟨hhanded, hspent⟩ := ih
    obtain ⟨hhanded', hspent'⟩ := hspent.step (keeps.reaches hx hreached) hstep
    exact ⟨hhanded'.trans hhanded, hspent'⟩

end

/-- In every run, each call that had a message certainly failed, except the last; and after
a last one that may have sent it, nobody gets it again. -/
theorem handed_over_once {rows : Rows} (hx : Procs.Reaches (rules sameName) ⟨World.start rows, []⟩ x)
    (hy : Procs.Reaches (rules sameName) x y) (id : Bytes) :
    (∀ o ∈ (x.shared.handed id).dropLast, Certain o) ∧
      (Spent x id → y.shared.handed id = x.shared.handed id) := by
  have hholds := keeps.reaches (Procs.holds_nil (safe_start rows)) hx
  exact ⟨(hholds.shared id).earlier, fun h => (h.reaches hholds hy).1⟩

def onePeer : Rows := ⟨[newMessage [1] .peer [2] [3] 5], List.nodup_singleton _⟩

def fineInput : Input where
  now := 7
  config := ⟨[⟨[2], [4], [5], false⟩], false⟩
  pageOpen := false
  safe := false
  routes := [⟨[4], [6], [7]⟩]
  cancelled := false
  fate := .done
  result := ⟨[], []⟩
  execErr := none
  shown := false

def finePass : World × Option Proc :=
  Procs.drive (stepProc (· == ·) fineInput) 7 { World.start onePeer with live := true } (.pass .listing)

/-- A message that was delivered. -/
theorem handed_over_once_delivered : ∃ x : Procs World Proc,
    Procs.Reaches (rules (· == ·)) ⟨World.start onePeer, []⟩ x ∧ Spent x [1] ∧
      ∀ y, Procs.Reaches (rules (· == ·)) x y → y.shared.handed [1] = [some .delivered] := by
  have hrun : Procs.Reaches (rules (· == ·)) ⟨.start onePeer, []⟩ ⟨finePass.1, finePass.2.toList⟩ := by
    have hboot : Procs.Step (rules (· == ·)) ⟨.start onePeer, []⟩
        ⟨{ World.start onePeer with live := true }, []⟩ :=
      .env (.boot [] 6 .failed rfl)
    have hstart : Procs.Step (rules (· == ·)) ⟨{ World.start onePeer with live := true }, []⟩
        ⟨{ World.start onePeer with live := true }, [.pass .listing]⟩ := .start ⟨rfl, .inl ⟨rfl, rfl⟩⟩
    have hact (w : World) (p : Proc) : (rules (· == ·)).act w p (stepProc (· == ·) fineInput w p).1
        (stepProc (· == ·) fineInput w p).2 := ⟨fineInput, rfl⟩
    exact .head hboot (.head hstart (Procs.reaches_drive hact 7 _ _))
  have hspent : Spent ⟨finePass.1, finePass.2.toList⟩ [1] := by
    refine ⟨⟨some .delivered, rfl, by rintro (h | h) <;> cases h⟩, fun p hp => ?_⟩
    rcases mem_singleton.mp hp with rfl
    exact not_false
  exact ⟨_, hrun, hspent, fun y hy => (handed_over_once hrun hy [1]).2 hspent⟩

end AiiOs.Outbox
