import AiiOs.Subagents.Legs

/-! Over every history of claims, failures, retries, stops and boots, the legs of a
sub-agent start once and in order, and a leg that was cut off is settled, not run again. -/

namespace AiiOs.Subagents
open Lib List Option Table Store.Queue

section
variable {w w' : World} {s : List Char} {n m : Nat} {p q : Run} {i : Input} {o : Option Run}
  {x y : Procs World Run}

/-! ### What else happens -/

theorem Sound.relive (h : Sound w s) (running : Marks) (live : Bool) :
    Sound { w with running := running, live := live } s :=
  have hagree : Agree w { w with running := running, live := live } s := ⟨rfl, rfl, fun _ _ => .rfl⟩
  hagree.sound h

def Kept (w : World) : Prop := Keyed w ∧ ∀ s, Sound w s

theorem start_keeps (hS : Kept w) (h : claims w w' p) :
    Kept w' ∧ p.Ok w' ∧ ∀ q, q.Ok w → q.Ok w' ∧ p.Beside q := by
  obtain ⟨hlive, hphase, hleft, now, items, hclaim, rfl⟩ := h
  obtain ⟨-, hstate, hfind, g, hg, hclaimed, r, hr, hpending⟩ :=
    @relabels_claim _
      { w.setItems items with running := { w.running with ids := p.item.id :: w.running.ids } }
      _ _ _ _ hclaim rfl rfl rfl
  have hidle (ph : Phase) (hph : ph = .checking) : ¬ph.Working := by rintro (h | h | h) <;>
    rw [hph] at h <;> cases h
  refine ⟨⟨hg.keyed hS.1, fun s => hg.sound (hS.2 s)⟩, ?_, fun q hq => ⟨?_, ?_⟩⟩
  · have hrest := hidle p.phase hphase
    refine ⟨hlive, hfind, hstate, ⟨mem_cons_self, hleft⟩, fun h => absurd (.inl h) hrest, fun h =>
      absurd h.working hrest,
      fun h => absurd (.inr (.inl h)) hrest, fun h => ?_, fun h => ?_, fun h => absurd h hrest⟩
    · rw [hphase] at h
      cases h
    · rw [hphase] at h
      rcases h with h | h | h <;> cases h
  · exact hg.ok hq (hclaimed _ hq.claimed) rfl ⟨mem_cons_of_mem _ hq.running.1, hq.running.2⟩
  · intro heq
    rw [heq, hq.item] at hr
    cases hr
    rw [hq.claimed] at hpending
    cases hpending

theorem stepRun_eq (h : ∀ e, p.phase ≠ .ending e) :
    stepRun i w p = if i.panics then (w, some { p with phase := .ending (some .panicked) })
      else ((stepPhase i w p).1, some { p with phase := (stepPhase i w p).2 }) := by
  rw [stepRun]
  split
  · rename_i e he
    exact absurd he (h e)
  · rfl

theorem act_keeps (hS : Kept w) (hp : p.Ok w) (h : stepRun i w p = (w', o)) :
    Kept w' ∧ (∀ p' ∈ o, p'.Ok w') ∧ ∀ q, q.Ok w → p.Beside q → q.Ok w' ∧ ∀ p' ∈ o, p'.Beside q := by
  -- a step that does not end the execution
  have hgoes {ph : Phase} (hstep : Steps p w (w', ph)) (ho : o = some { p with phase := ph }) :
      Kept w' ∧ (∀ p' ∈ o, p'.Ok w') ∧ ∀ q, q.Ok w → p.Beside q → q.Ok w' ∧ ∀ p' ∈ o, p'.Beside q := by
    obtain ⟨hacts, hok⟩ := hstep
    subst ho
    refine ⟨?_, by rintro p' ⟨⟩; exact hok, fun q hq hne => ⟨?_, by rintro p' ⟨⟩; exact hne⟩⟩
    · rcases hacts with rfl | ⟨-, hwrites⟩
      · exact hS
      · exact ⟨hwrites.keyed, hwrites.sound hS.2⟩
    · rcases hacts with rfl | ⟨hwork, hwrites⟩
      · exact hq
      · exact hwrites.beside hS.2 hp hwork hq hne
  by_cases hending : ∃ e, p.phase = .ending e
  · obtain ⟨e, he⟩ := hending
    rw [stepRun, he] at h
    cases h
    obtain ⟨g, hg, hothers⟩ := relabels_finish i w p e
    refine ⟨⟨hg.keyed hS.1, fun s => hg.sound (hS.2 s)⟩, fun p' h => absurd h (not_mem_none p'),
      fun q hq hne => ⟨?_, fun p' h => absurd h (not_mem_none p')⟩⟩
    refine hg.ok hq (hothers _ (.symm hne)) (by unfold finish; split_ifs <;> rfl) ?_
    unfold finish
    split_ifs <;> exact ⟨hq.running.1, not_mem_cons_of_ne_of_not_mem (.symm hne) hq.running.2⟩
  · rw [stepRun_eq (fun e he => hending ⟨e, he⟩)] at h
    split_ifs at h
    · cases h
      exact hgoes (hp.same (idle_ending _)) rfl
    · cases h
      exact hgoes (steps_phase hS.1 hS.2 hp) rfl

def newSession (id : List Char) : WorkSession := ⟨id, false, [], none, 0⟩

theorem enqueueWorkWithSession_eq_ok {itemID : List Char} {payload : SubagentRequest}
    {leaseMs : Int} {st : Store}
    (hS : Kept w) (hid : '#' ∉ payload.sessionID)
    (h : enqueueWorkWithSession (newItem itemID payload payload.sessionID leaseMs) payload.sessionID
      w.store = .ok st) :
    ∃ (hfree : ¬w.store.sessions.Holds payload.sessionID) (hnew : ¬w.store.items.Holds itemID),
      st = ⟨w.store.sessions.push (newSession payload.sessionID) hfree,
        w.store.items.push (newItem itemID payload payload.sessionID leaseMs) hnew⟩ := by
  obtain ⟨items, henqueue, h⟩ := bind_eq_ok.mp h
  cases hinsert : w.store.sessions.insert? (newSession payload.sessionID) with
  | none =>
    rw [newSession] at hinsert
    rw [hinsert] at h
    cases h
  | some sessions =>
    obtain ⟨hfree, hsessions⟩ := insert?_eq_some.mp hinsert
    obtain ⟨-, hnot⟩ := (hS.2 payload.sessionID).unspawned (Table.find?_eq_none.mpr hfree)
    -- no item has the key of a session that does not exist
    have hkeys : ∀ r ∈ w.store.items.rows, r.dedupKey ≠ payload.sessionID := by
      intro r hr hkey
      obtain ⟨hrkey, -⟩ := hS.1 r hr
      rw [hrkey, itemKey] at hkey
      split_ifs at hkey with hone
      · exact hnot 1 ⟨r, hr, hkey, hone⟩
      · exact hid (hkey ▸ mem_append_right _ mem_cons_self)
    obtain ⟨hnew, rfl⟩ :=
      @enqueueWork_eq_ok _ (newItem itemID payload payload.sessionID leaseMs) _ hkeys henqueue
    rw [newSession] at hinsert
    rw [hinsert] at h
    cases h
    rw [hsessions]
    exact ⟨hfree, hnew, rfl⟩

section
variable {itemID : List Char} {payload : SubagentRequest} {leaseMs : Int}
  (hfree : ¬w.store.sessions.Holds payload.sessionID) (hnew : ¬w.store.items.Holds itemID)

theorem agree_spawn {t : List Char} (ht : t ≠ payload.sessionID) : Agree w
    { w with store := ⟨w.store.sessions.push (newSession payload.sessionID) hfree,
      w.store.items.push (newItem itemID payload payload.sessionID leaseMs) hnew⟩ } t := by
  refine ⟨(find?_push hfree t).trans (if_neg ht), rfl, fun b hb => (mem_push hnew).trans (or_iff_left ?_)⟩
  rintro rfl
  exact ht hb.symm

theorem sound_spawn (hleg : payload.leg = 0) (hs : Sound w payload.sessionID) : Sound
    { w with store := ⟨w.store.sessions.push (newSession payload.sessionID) hfree,
      w.store.items.push (newItem itemID payload payload.sessionID leaseMs) hnew⟩ } payload.sessionID := by
  obtain ⟨hlog, hnot⟩ := hs.unspawned (Table.find?_eq_none.mpr hfree)
  have hno : payload.legNo = 1 := by
    rw [SubagentRequest.legNo, hleg]
    rfl
  have hempty {e : Event} : e ∉ w.log payload.sessionID := by
    rw [hlog]
    exact not_mem_nil
  -- the first leg is all there is of the session
  have honly : ∀ b ∈ (w.store.items.push (newItem itemID payload payload.sessionID leaseMs) hnew).rows,
      b.payload.sessionID = payload.sessionID → b = newItem itemID payload payload.sessionID leaseMs := by
    intro b hb hbs
    rcases (mem_push hnew).mp hb with hb | rfl
    · exact absurd ⟨b, hb, hbs, rfl⟩ (hnot b.payload.legNo)
    · rfl
  refine ⟨fun a ha b hb has hbs _ => ?_, fun n hn hq => ?_, fun n hn => absurd hn hempty,
    fun n hn => absurd hn hempty, fun r e hw _ => absurd hw hempty, ?_, fun hnone => ?_⟩
  · rw [honly a ha has, honly b hb hbs]
  · obtain ⟨b, hb, hbs, hbn⟩ := hq
    rw [honly b hb hbs] at hbn
    have : payload.legNo = n + 1 := hbn
    omega
  · rw [hlog]
    exact each_nil
  · have hsome : some (newSession payload.sessionID) = none :=
      (if_pos rfl).symm.trans ((find?_push hfree payload.sessionID).symm.trans hnone)
    cases hsome

theorem spawn_keeps (hS : Kept w) (hleg : payload.leg = 0) (hid : '#' ∉ payload.sessionID) :
    Kept { w with store := ⟨w.store.sessions.push (newSession payload.sessionID) hfree,
        w.store.items.push (newItem itemID payload payload.sessionID leaseMs) hnew⟩ } ∧
      ∀ q : Run, q.Ok w → q.Ok { w with store := ⟨w.store.sessions.push (newSession payload.sessionID) hfree,
        w.store.items.push (newItem itemID payload payload.sessionID leaseMs) hnew⟩ } := by
  obtain ⟨-, hnot⟩ := (hS.2 payload.sessionID).unspawned (Table.find?_eq_none.mpr hfree)
  refine ⟨⟨fun b hb => ?_, fun t => ?_⟩, fun q hq => ?_⟩
  · rcases (mem_push hnew).mp hb with hb | rfl
    · exact hS.1 b hb
    · have hno : payload.legNo = 1 := by
        rw [SubagentRequest.legNo, hleg]
        rfl
      exact ⟨(if_pos hno).symm, hid⟩
  · by_cases ht : t = payload.sessionID
    · rw [ht]
      exact sound_spawn hfree hnew hleg (hS.2 _)
    · exact (agree_spawn hfree hnew ht).sound (hS.2 t)
  · have hother : q.session ≠ payload.sessionID := fun h => hnot q.leg (h ▸ hq.queued)
    refine (agree_spawn hfree hnew hother).alike.ok hq rfl hq.running ?_
    refine (find?_push hnew _).trans ?_
    rw [if_neg, hq.item]
    intro heq
    exact hnew (Table.holds_iff.mpr ⟨q.item, hq.mem, heq⟩)

end

theorem relabels_sweep (now : Int) (w : World) :
    Relabels (fun r => if r.state = .claimed && r.claimedAt + r.leaseMs < now && r.id ∉ w.running.ids then
        r.retried now else r) w (w.setItems (sweepExpiredLeases now w.store.items w.running.ids)) :=
  relabels_update (fun _ => rfl) (fun _ => rfl) (fun _ => rfl) rfl rfl rfl

/-! ### The boot -/

theorem find?_sweepOrphans (w : World) (s : List Char) : w.sweepOrphans.store.sessions.find? s =
    (w.store.sessions.find? s).map fun r => if orphaned w.store.items r then
        { r with delivered := true, result := interruptedByRestart, evidence := some .externalUnknown }
      else r :=
  find?_update (by intro; rfl) s

theorem sound_sweepOrphans (h : Sound w s) : Sound w.sweepOrphans s := by
  have hrow := find?_sweepOrphans w s
  have hlog : w.sweepOrphans.log s = if (w.store.sessions.find? s).any (orphaned w.store.items) then
      w.log s ++ [.wrote interruptedByRestart (some .externalUnknown)] else w.log s := rfl
  cases hfind : w.store.sessions.find? s with
  | none =>
    rw [hfind] at hrow hlog
    exact Agree.sound ⟨hrow.trans hfind.symm, hlog, fun _ _ => .rfl⟩ h
  | some row =>
    rw [hfind] at hrow hlog
    by_cases horphan : orphaned w.store.items row
    · rw [map_some, if_pos horphan] at hrow
      rw [any_some, if_pos horphan] at hlog
      have hmark : w.sweepOrphans.mark s = w.mark s := by rw [mark_eq hrow, mark_eq hfind]
      refine h.note rfl hlog hmark (by rintro _ ⟨⟩) (by rintro _ ⟨⟩) (fun r e _ _ => ?_) trivial
        (by simp [hrow])
      rw [sessionDelivered_eq hrow]
      rfl
    · rw [map_some, if_neg horphan] at hrow
      rw [any_some, if_neg horphan] at hlog
      exact Agree.sound ⟨hrow.trans hfind.symm, hlog, fun _ _ => .rfl⟩ h

theorem env_keeps (hS : Kept w) (h : Env w w') : Kept w' ∧ ∀ q : Run, q.Ok w → q.Ok w' := by
  cases h with
  | spawn itemID payload leaseMs hleg hid h =>
    obtain ⟨hfree, hnew, rfl⟩ := enqueueWorkWithSession_eq_ok hS hid h
    exact spawn_keeps hfree hnew hS hleg hid
  | sweep now =>
    have hg := relabels_sweep now w
    refine ⟨⟨hg.keyed hS.1, fun s => hg.sound (hS.2 s)⟩, fun q hq => hg.ok hq ?_ rfl hq.running⟩
    simp [hq.running.1]
  | forget id h =>
    have hagree (s : List Char) : Agree w { w with running := w.running.remove id } s :=
      ⟨rfl, rfl, fun _ _ => .rfl⟩
    refine ⟨⟨hS.1, fun s => (hagree s).sound (hS.2 s)⟩, fun q hq => (hagree _).alike.ok hq rfl ?_ hq.item⟩
    -- an execution that goes on has not left its mark
    have hne : q.item.id ≠ id := fun heq => hq.running.2 (heq ▸ h)
    exact ⟨mem_filter.mpr ⟨hq.running.1, decide_eq_true hne⟩, fun hin => hq.running.2 (mem_filter.mp hin).1⟩
  | @claimLost it items id now h =>
    obtain ⟨-, -, -, g, hg, hclaimed, -⟩ := @relabels_claim _ (w.setItems items) _ _ _ _ h rfl rfl rfl
    exact ⟨⟨hg.keyed hS.1, fun s => hg.sound (hS.2 s)⟩, fun q hq =>
      hg.ok hq (hclaimed _ hq.claimed) rfl hq.running⟩
  | boot ending hboot =>
    refine ⟨?_, fun q hq => ?_⟩
    · split
      · exact ⟨hS.1, fun s => (hS.2 s).relive _ _⟩
      · exact ⟨hS.1, fun s => (sound_sweepOrphans (hS.2 s)).relive _ _⟩
    · rw [hq.live] at hboot
      cases hboot

theorem keeps : Procs.Keeps rules Kept (fun w p => p.Ok w) Run.Beside where
  symm p q h := Ne.symm h
  start w w' p hS hstart := start_keeps hS hstart
  act w p w' o hS hp hact := by
    obtain ⟨i, hstep⟩ := hact
    exact act_keeps hS hp hstep
  env w w' hS henv := env_keeps hS henv
  stop w w' hS hstop := by
    rw [hstop]
    exact ⟨hS.1, fun s => (hS.2 s).relive _ _⟩

theorem kept_start : Kept World.start := by
  have hnot (s : List Char) (n : Nat) : ¬Queued .start s n := fun ⟨it, hit, _⟩ => absurd hit not_mem_nil
  refine ⟨fun it hit => absurd hit not_mem_nil, fun s => ?_⟩
  exact ⟨fun a ha => absurd ha not_mem_nil, fun n _ hq => absurd hq (hnot s _), fun n h =>
    absurd h not_mem_nil,
    fun n h => absurd h not_mem_nil, fun r e h => absurd h not_mem_nil, each_nil, fun _ => ⟨rfl, hnot s⟩⟩

/-! ### A leg that was cut off -/

/-- The outcome of an interruption: what the leg did outside is not known. -/
def Interrupted (e : Event) : Prop :=
  ∃ r, e = .wrote r (some .externalUnknown) ∧ (r = interruptedByRestart ∨ ∃ detail, r = interruptedLeg detail)

structure CutOff (x : Procs World Run) (s : List Char) (n : Nat) : Prop where
  queued : Queued x.shared s n
  last : ¬Queued x.shared s (n + 1)
  marked : n ≤ x.shared.mark s
  nobody : ∀ q ∈ x.running, q.session = s → ¬q.phase.Fresh ∧ ¬q.phase.Inner

structure Settles (w w' : World) (s : List Char) : Prop where
  queued : ∀ n, Queued w' s n ↔ Queued w s n
  mark : w'.mark s = w.mark s
  log : ∃ es, w'.log s = w.log s ++ es ∧ ∀ e ∈ es, Interrupted e

theorem settles_of_log (hqueued : ∀ n, Queued w' s n ↔ Queued w s n) (hmark : w'.mark s = w.mark s)
    (hlog : w'.log s = w.log s) : Settles w w' s :=
  ⟨hqueued, hmark, [], by rw [hlog, append_nil], fun e he => absurd he not_mem_nil⟩

theorem Alike.settles (h : Alike w w' s) : Settles w w' s := settles_of_log h.queued h.mark h.log

theorem settles_sweepOrphans (live : Bool) : Settles w { w.sweepOrphans with live := live } s := by
  have hrow := find?_sweepOrphans w s
  have hmark : w.sweepOrphans.mark s = w.mark s := by
    cases hfind : w.store.sessions.find? s with
    | none =>
      rw [hfind] at hrow
      rw [World.mark, World.mark, workSessionStartedLeg, workSessionStartedLeg, hfind, hrow]
      rfl
    | some row =>
      rw [hfind, map_some] at hrow
      rw [mark_eq hrow, mark_eq hfind]
      split_ifs <;> rfl
  refine ⟨fun _ => .rfl, hmark, ?_⟩
  by_cases horphan : (w.store.sessions.find? s).any (orphaned w.store.items)
  · refine ⟨[.wrote interruptedByRestart (some .externalUnknown)], if_pos horphan, fun e he => ?_⟩
    rw [mem_singleton.mp he]
    exact ⟨_, rfl, .inl rfl⟩
  · refine ⟨[], ?_, fun e he => absurd he not_mem_nil⟩
    rw [append_nil]
    exact if_neg horphan

theorem settles_env (hS : Kept w) (hspawned : Queued w s n) (h : Env w w') : Settles w w' s := by
  cases h with
  | spawn itemID payload leaseMs hleg hid h =>
    obtain ⟨hfree, hnew, rfl⟩ := enqueueWorkWithSession_eq_ok hS hid h
    refine (agree_spawn hfree hnew ?_).alike.settles
    rintro rfl
    exact ((hS.2 _).unspawned (Table.find?_eq_none.mpr hfree)).2 n hspawned
  | sweep now => exact (relabels_sweep now w).alike.settles
  | forget id h => exact settles_of_log (fun _ => .rfl) rfl rfl
  | @claimLost it items id now h =>
    obtain ⟨-, -, -, g, hg, -⟩ := @relabels_claim _ (w.setItems items) _ _ _ _ h rfl rfl rfl
    exact hg.alike.settles
  | boot ending hboot =>
    split_ifs
    · exact settles_of_log (fun _ => .rfl) rfl rfl
    · exact settles_sweepOrphans true

theorem settles_phase (hS : Kept w) (hnobody : ¬p.phase.Fresh ∧ ¬p.phase.Inner)
    (hmark : p.leg ≤ w.mark p.session) : Settles w (stepPhase i w p).1 p.session ∧
      ¬(stepPhase i w p).2.Fresh ∧ ¬(stepPhase i w p).2.Inner := by
  have hsame : Settles w w p.session := settles_of_log (fun _ => .rfl) rfl rfl
  -- of the phases left only `interrupting` writes, and it writes the interruption
  cases hphase : p.phase with
  | checking =>
    rw [stepPhase, hphase]
    simp only
    cases p.item.payload.validate with
    | error e => exact ⟨hsame, not_false, not_false⟩
    | ok u =>
      split_ifs
      · exact ⟨hsame, not_false, not_false⟩
      · exact ⟨hsame, not_false, not_false⟩
  | closing =>
    rw [stepPhase, hphase]
    exact ⟨hsame, not_false, not_false⟩
  | starting =>
    have hstarted : p.leg ≤ workSessionStartedLeg p.session w.store.sessions := hmark
    rw [stepPhase, hphase]
    simp only
    split_ifs
    · exact ⟨hsame, not_false, not_false⟩
    · exact ⟨hsame, not_false, not_false⟩
  | recovering =>
    rw [stepPhase, hphase]
    simp only
    split_ifs
    · exact ⟨hsame, not_false, not_false⟩
    · exact ⟨hsame, not_false, not_false⟩
    · exact ⟨hsame, not_false, not_false⟩
  | interrupting =>
    rw [stepPhase, hphase]
    refine ⟨?_, not_false, not_false⟩
    rcases exec_cases (w := w) (i := i)
      (World.deliver p.session (interruption p i.record) (some .externalUnknown) []) with
      ⟨heq, -⟩ | ⟨w', hop, hw'⟩
    · rw [heq]
      exact hsame
    · rw [hw']
      have hreal : isPreStartFailure (interruption p i.record) ≠ true := by rintro ⟨⟩
      obtain ⟨-, hitems, hlog, hmark'⟩ := writes_deliver hS.1 hS.2 (fun h => absurd h hreal) hop
      refine ⟨fun _ => by rw [Queued, hitems]; rfl, hmark', _, hlog, fun e he => ?_⟩
      rw [mem_singleton.mp he]
      exact ⟨_, rfl, .inr ⟨_, rfl⟩⟩
  | ending e =>
    rw [stepPhase, hphase]
    exact ⟨hsame, not_false, not_false⟩
  | preparing => exact absurd (by rw [hphase]; trivial) hnobody.1
  | failing cause => exact absurd (by rw [hphase]; trivial) hnobody.1
  | marking => exact absurd (by rw [hphase]; trivial) hnobody.1
  | entering => exact absurd (by rw [hphase]; trivial) hnobody.1
  | looping => exact absurd (by rw [hphase]; trivial) hnobody.2
  | looped r => exact absurd (by rw [hphase]; trivial) hnobody.2
  | enqueueing r => exact absurd (by rw [hphase]; trivial) hnobody.2
  | delivering r => exact absurd (by rw [hphase]; trivial) hnobody.2

theorem CutOff.of_settles (h : CutOff x s n) (hsettles : Settles x.shared y.shared s)
    (hnobody : ∀ q ∈ y.running, q.session = s → ¬q.phase.Fresh ∧ ¬q.phase.Inner) :
    CutOff y s n ∧ ∃ es, y.shared.log s = x.shared.log s ++ es ∧ ∀ e ∈ es, Interrupted e := by
  refine ⟨⟨(hsettles.queued n).mpr h.queued, ?_, ?_, hnobody⟩, hsettles.log⟩
  · rw [hsettles.queued]
    exact h.last
  · rw [hsettles.mark]
    exact h.marked

theorem CutOff.act (hx : Kept w) (hp : p.Ok w) (hmark : p.session = s → p.leg ≤ w.mark s)
    (hnobody : p.session = s → ¬p.phase.Fresh ∧ ¬p.phase.Inner) (h : stepRun i w p = (w', o)) :
    Settles w w' s ∧ ∀ p' ∈ o, p'.session = s → ¬p'.phase.Fresh ∧ ¬p'.phase.Inner := by
  by_cases hending : ∃ e, p.phase = .ending e
  · obtain ⟨e, he⟩ := hending
    rw [stepRun, he] at h
    cases h
    obtain ⟨g, hg, -⟩ := relabels_finish i w p e
    exact ⟨hg.alike.settles, fun p' h => absurd h (not_mem_none p')⟩
  · rw [stepRun_eq (fun e he => hending ⟨e, he⟩)] at h
    split_ifs at h
    · cases h
      refine ⟨settles_of_log (fun _ => .rfl) rfl rfl, ?_⟩
      rintro p' ⟨⟩ -
      exact ⟨not_false, not_false⟩
    · cases h
      by_cases hs : p.session = s
      · subst hs
        obtain ⟨hsettles, hfresh, hinner⟩ := settles_phase (i := i) hx (hnobody rfl) (hmark rfl)
        refine ⟨hsettles, ?_⟩
        rintro p' ⟨⟩ -
        exact ⟨hfresh, hinner⟩
      · refine ⟨?_, ?_⟩
        · rcases (steps_phase hx.1 hx.2 hp (i := i)).1 with hsame | ⟨-, hwrites⟩
          · rw [hsame]
            exact settles_of_log (fun _ => .rfl) rfl rfl
          · exact (hwrites.other s (.symm hs)).alike.settles
        · rintro p' ⟨⟩ hs'
          exact absurd hs' hs

section
variable (h : CutOff x s n) (hx : Procs.Holds Kept (fun w p => p.Ok w) Run.Beside x)
include h hx

theorem CutOff.step (hstep : Procs.Step rules x y) :
    CutOff y s n ∧ ∃ es, y.shared.log s = x.shared.log s ++ es ∧ ∀ e ∈ es, Interrupted e := by
  cases hstep with
  | @start w w' p ps hstart =>
    obtain ⟨-, hphase, -, now, items, hclaim, rfl⟩ := hstart
    obtain ⟨-, -, -, g, hg, -⟩ := @relabels_claim _
      { w.setItems items with running := { w.running with ids := p.item.id :: w.running.ids } }
      _ _ _ _ hclaim rfl rfl rfl
    refine h.of_settles hg.alike.settles (forall_mem_cons.mpr ⟨fun _ => ?_, h.nobody⟩)
    rw [hphase]
    exact ⟨not_false, not_false⟩
  | @act w w' p o before after hact =>
    obtain ⟨i, hact⟩ := hact
    have hmem : p ∈ before ++ p :: after := mem_append_right _ mem_cons_self
    have hp := hx.each p hmem
    have hmark (hs : p.session = s) : p.leg ≤ w.mark s :=
      le_trans ((hx.shared.2 s).le_of_last h.last (hs ▸ hp.queued)) h.marked
    obtain ⟨hsettles, hnext⟩ := CutOff.act hx.shared hp hmark (h.nobody p hmem) hact
    exact h.of_settles hsettles (Procs.forall_running h.nobody hnext)
  | env henv => exact h.of_settles (settles_env hx.shared h.queued henv) h.nobody
  | stop hstop =>
    rw [hstop]
    exact h.of_settles (settles_of_log (fun _ => .rfl) rfl rfl) fun q hq => absurd hq not_mem_nil

theorem CutOff.reaches (hy : Procs.Reaches rules x y) :
    CutOff y s n ∧ ∃ es, y.shared.log s = x.shared.log s ++ es ∧ ∀ e ∈ es, Interrupted e := by
  induction hy with
  | refl => exact ⟨h, [], by rw [append_nil], fun e he => absurd he not_mem_nil⟩
  | tail hreached hstep ih =>
    obtain ⟨hcut, es, hes, hall⟩ := ih
    obtain ⟨hcut', es', hes', hall'⟩ := hcut.step (keeps.reaches hx hreached) hstep
    refine ⟨hcut', es ++ es', by rw [hes', hes, append_assoc], fun e he => ?_⟩
    rcases mem_append.mp he with he | he
    · exact hall e he
    · exact hall' e he

end

theorem cutOff_of_back (hx : Procs.Holds Kept (fun w p => p.Ok w) Run.Beside x) (hp : p ∈ x.running)
    (hphase : p.phase = .checking) (hstarted : .started p.leg ∈ x.shared.log p.session)
    (hnext : hasWorkItem (legKey p.session (p.leg + 1)) x.shared.store.items = false) :
        CutOff x p.session p.leg := by
  have hok := hx.each p hp
  have hsound := hx.shared.2 p.session
  have hlast : ¬Queued x.shared p.session (p.leg + 1) := by
    intro hq
    have hhas := (Keyed.hasWorkItem hx.shared.1 (hok.plain hx.shared.1) (legNo_pos p.item.payload)).mpr hq
    exact absurd (hhas.symm.trans hnext) nofun
  refine ⟨hok.queued, hlast, (hsound.marked _ hstarted).2, fun q hq hs => ?_⟩
  by_cases hqp : q = p
  · rw [hqp, hphase]
    exact ⟨not_false, not_false⟩
  -- any other execution at work would be of the last leg too
  have hokq := hx.each q hq
  have hidle : ¬q.phase.Working := by
    intro hwork
    have hle := hsound.le_of_last hlast (hs ▸ hokq.queued)
    have hge : p.leg ≤ q.leg := Sound.le_of_last (hs ▸ hsound) (hokq.last hwork) (hs ▸ hok.queued)
    have : Std.Symm Run.Beside := ⟨keeps.symm⟩
    have hbeside : p.Beside q := hx.pairs.forall hp hq (.symm hqp)
    exact hsound.leg_ne hok hokq hs hbeside (le_antisymm hle hge)
  exact ⟨fun hf => hidle (.inl hf), fun hi => hidle (.inr (.inl hi))⟩

/-! ### Histories -/

/-- In every history a leg is started at most once, behind the leg before it, which was
started and then handed over, and before any result that is not a failure before the start;
and when a leg that was started comes back with no leg behind it, all that is written from
then on are interruptions with unknown effects. -/
theorem legs_start_once (hx : Procs.Reaches rules ⟨World.start, []⟩ x) (s : List Char) :
    (∀ before n after, x.shared.log s = before ++ .started n :: after → .started n ∉ before ∧
        (n = 1 ∨ ∃ m first last, n = m + 1 ∧ before = first ++ .handed m :: last ∧ .started m ∈ first) ∧
        ∀ r e, .wrote r e ∈ before → isPreStartFailure r) ∧
    ∀ p ∈ x.running, p.session = s → p.phase = .checking → .started p.leg ∈ x.shared.log s →
      hasWorkItem (legKey s (p.leg + 1)) x.shared.store.items = false → ∀ y, Procs.Reaches rules x y →
        ∃ es, y.shared.log s = x.shared.log s ++ es ∧ ∀ e ∈ es, Interrupted e := by
  have hholds := keeps.reaches (Procs.holds_nil kept_start) hx
  have hlegal := (hholds.shared.2 s).legal
  refine ⟨fun before n after heq => ?_, ?_⟩
  · obtain ⟨hnew, hprev, hpre⟩ := hlegal before (.started n) after heq
    refine ⟨hnew, hprev.imp_right ?_, hpre⟩
    rintro ⟨m, rfl, hm⟩
    obtain ⟨first, last, rfl⟩ := append_of_mem hm
    rw [append_assoc] at heq
    exact ⟨m, first, last, rfl, rfl, hlegal first (.handed m) _ heq⟩
  · rintro p hp rfl hphase hstarted hnext y hy
    exact ((cutOff_of_back hholds hp hphase hstarted hnext).reaches hholds hy).2

/-- In every history an execution at work is of the last leg that is queued, and no other
execution of the session is at work. -/
theorem last_leg_works_alone (hx : Procs.Reaches rules ⟨.start, []⟩ x) (hp : p ∈ x.running)
    (hwork : p.phase.Working) : (∀ n, Queued x.shared p.session n → n ≤ p.leg) ∧
      ∀ q ∈ x.running, q.session = p.session → q.phase.Working → q = p := by
  have hholds := keeps.reaches (Procs.holds_nil kept_start) hx
  have hsound := hholds.shared.2 p.session
  have hok := hholds.each p hp
  refine ⟨fun n hn => hsound.le_of_last (hok.last hwork) hn, fun q hq hs hqwork => ?_⟩
  by_contra hne
  have : Std.Symm Run.Beside := ⟨keeps.symm⟩
  have hbeside : p.Beside q := hholds.pairs.forall hp hq (.symm hne)
  exact (hsound.earlier hok (hholds.each q hq) hs hbeside hwork).2 hqwork

end

def oneRequest : SubagentRequest := ⟨['g'], 1, ['w'], charsOf "folded", 10, 0⟩

def oneItem : WorkItem := newItem ['i'] oneRequest ['w'] 70000

def firstRun : Run := ⟨{ oneItem with state := .claimed }, ⟨1, true, 10⟩, .checking⟩

def plainResult : LoopResult := ⟨false, false, false, false, false, [], none, []⟩

def plainInput : Input := ⟨0, .done, false, false, none, [], [], none, plainResult, ['j']⟩

def spawnedWorld : World := { World.start with
    store := ⟨Table.empty.push (newSession ['w']) (Table.not_holds_empty _),
      Table.empty.push oneItem (Table.not_holds_empty _)⟩ }

def claimedWorld : World :=
  { spawnedWorld.setItems ⟨[{ oneItem with state := .claimed }], List.nodup_singleton _⟩ with
    running := ⟨[['i']], []⟩, live := true }

def cutWorld : World :=
  { (Procs.drive (stepRun plainInput) 5 claimedWorld firstRun).1 with running := ⟨[], []⟩, live := false }

example : cutWorld.log ['w'] = [.started 1] := rfl

theorem reaches_cutWorld : Procs.Reaches rules ⟨World.start, []⟩ ⟨cutWorld, []⟩ := by
  have hspawn : Procs.Step rules ⟨.start, []⟩ ⟨spawnedWorld, []⟩ :=
    .env (.spawn ['i'] oneRequest 70000 rfl (by decide) rfl)
  have hboot : Procs.Step rules ⟨spawnedWorld, []⟩ ⟨{ spawnedWorld with live := true }, []⟩ :=
    .env (.boot .failed rfl)
  have hclaim : Procs.Step rules ⟨{ spawnedWorld with live := true }, []⟩ ⟨claimedWorld, [firstRun]⟩ :=
    .start ⟨rfl, rfl, not_mem_nil, 0, _, rfl, rfl⟩
  have hact (w : World) (p : Run) : rules.act w p (stepRun plainInput w p).1
    (stepRun plainInput w p).2 := ⟨plainInput, rfl⟩
  have hrun := Procs.reaches_drive hact 5 claimedWorld firstRun
  have hstop : Procs.Step rules ⟨(Procs.drive (stepRun plainInput) 5 claimedWorld firstRun).1,
      (Procs.drive (stepRun plainInput) 5 claimedWorld firstRun).2.toList⟩ ⟨cutWorld, []⟩ := .stop rfl
  exact .head hspawn (.head hboot (.head hclaim (hrun.tail hstop)))

def secondRun : Run :=
  ⟨{ oneItem with state := .claimed, retryCount := 1, scheduled := 101000, claimedAt := 200000 },
    ⟨1, true, 10⟩, .checking⟩

def sweptWorld : World :=
  { cutWorld.setItems ⟨[{ oneItem with retryCount := 1, scheduled := 101000 }],
    List.nodup_singleton _⟩ with live := true }

def backWorld : World :=
  { sweptWorld.setItems ⟨[secondRun.item], List.nodup_singleton _⟩ with running := ⟨[['i']], []⟩ }

theorem reaches_backWorld : Procs.Reaches rules ⟨World.start, []⟩ ⟨backWorld, [secondRun]⟩ := by
  have hboot : Procs.Step rules ⟨cutWorld, []⟩ ⟨{ cutWorld with live := true }, []⟩ :=
    .env (.boot .failed rfl)
  have hsweep : Procs.Step rules ⟨{ cutWorld with live := true }, []⟩ ⟨sweptWorld, []⟩ := .env (.sweep 100000)
  have hclaim : Procs.Step rules ⟨sweptWorld, []⟩ ⟨backWorld, [secondRun]⟩ :=
    .start ⟨rfl, rfl, not_mem_nil, 200000, _, rfl, rfl⟩
  exact ((reaches_cutWorld.tail hboot).tail hsweep).tail hclaim

/-- A leg that was cut off and comes back. -/
theorem legs_start_once_back :
    backWorld.log ['w'] = [.started 1] ∧ ∀ y, Procs.Reaches rules ⟨backWorld, [secondRun]⟩ y →
    ∃ es, y.shared.log ['w'] = [.started 1] ++ es ∧ ∀ e ∈ es, Interrupted e := by
  have hlog : backWorld.log ['w'] = [.started 1] := rfl
  refine ⟨hlog, fun y hy => ?_⟩
  refine (legs_start_once reaches_backWorld ['w']).2 secondRun mem_cons_self rfl rfl ?_ rfl y hy
  exact mem_cons_self

theorem last_leg_works_alone_back :
    ∃ w p, Procs.Reaches rules ⟨.start, []⟩ ⟨w, [p]⟩ ∧ p.phase = .interrupting ∧
    ∀ n, Queued w ['w'] n → n ≤ 1 := by
  have hx := reaches_backWorld.trans
    (@Procs.reaches_drive _ _ rules (stepRun plainInput) (fun _ _ => ⟨plainInput, rfl⟩) 3 backWorld secondRun)
  exact ⟨_, _, hx, rfl, (last_leg_works_alone hx mem_cons_self (.inr (.inr rfl))).1⟩

end AiiOs.Subagents
