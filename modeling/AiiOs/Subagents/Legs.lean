import AiiOs.Lib.Fold
import AiiOs.Subagents.RunWork

/-! What every step of the executor keeps: the legs of a session follow one another, the
last of them is the only one at work, and the store knows which of them were started. -/

namespace AiiOs.Subagents
open Lib List Table Store.Queue

/-! ### The invariant -/

def Queued (w : World) (s : List Char) (n : Nat) : Prop :=
  ∃ it ∈ w.store.items.rows, it.payload.sessionID = s ∧ it.payload.legNo = n

def World.mark (w : World) (s : List Char) : Nat := workSessionStartedLeg s w.store.sessions

def itemKey (r : SubagentRequest) :
    List Char := if r.legNo = 1 then r.sessionID else legKey r.sessionID r.legNo

def Keyed (w : World) :
    Prop := ∀ it ∈ w.store.items.rows, it.dedupKey = itemKey it.payload ∧ '#' ∉ it.payload.sessionID

/-- A leg starts once, behind the leg that handed over to it, and before any result that
counts; a leg hands over once it was started. -/
def Allowed (before : List Event) : Event → Prop
  | .started n =>
    .started n ∉ before ∧ (n = 1 ∨ ∃ m, n = m + 1 ∧ .handed m ∈ before) ∧
      ∀ r e, .wrote r e ∈ before → isPreStartFailure r
  | .handed n => .started n ∈ before
  | .wrote _ _ => True

structure Sound (w : World) (s : List Char) : Prop where
  one : ∀ a ∈ w.store.items.rows, ∀ b ∈ w.store.items.rows, a.payload.sessionID = s →
    b.payload.sessionID = s → a.payload.legNo = b.payload.legNo → a = b
  handed : ∀ n, 1 ≤ n → Queued w s (n + 1) → .handed n ∈ w.log s
  started : ∀ n, .handed n ∈ w.log s → .started n ∈ w.log s
  marked : ∀ n, .started n ∈ w.log s → Queued w s n ∧ n ≤ w.mark s
  real : ∀ r e, .wrote r e ∈ w.log s → isPreStartFailure r = false → w.sessionDelivered s
  legal : Each Allowed (w.log s)
  unspawned : w.store.sessions.find? s = none → w.log s = [] ∧ ∀ n, ¬Queued w s n

def Phase.Fresh : Phase → Prop
  | .preparing | .failing _ | .marking | .entering => True
  | _ => False

def Phase.Inner : Phase → Prop
  | .looping | .looped _ | .enqueueing _ | .delivering _ => True
  | _ => False

def Phase.Working (p : Phase) : Prop := p.Fresh ∨ p.Inner ∨ p = .interrupting

def Phase.Open : Phase → Prop
  | .enqueueing _ | .delivering _ => True
  | p => p.Fresh

structure Run.Ok (w : World) (p : Run) : Prop where
  live : w.live
  item : w.store.items.find? p.item.id = some p.item
  claimed : p.item.state = .claimed
  running : w.running.Stays p.item.id
  fresh : p.phase.Fresh → .started p.leg ∉ w.log p.session
  undelivered : p.phase.Open → w.sessionDelivered p.session = false
  inner : p.phase.Inner → .started p.leg ∈ w.log p.session
  starting : p.phase = .starting → p.leg ≤ w.mark p.session ∨ w.sessionDelivered p.session = false
  marked : p.phase = .recovering ∨ p.phase = .interrupting ∨ p.phase = .entering → p.leg ≤ w.mark p.session
  last : p.phase.Working → ¬Queued w p.session (p.leg + 1)

def Run.Beside (p q : Run) : Prop := p.item.id ≠ q.item.id

section
variable {w w' : World} {s : List Char} {n m : Nat} {p q : Run} {i : Input} {it : WorkItem}

/-! ### Legs -/

theorem legNo_pos (r : SubagentRequest) : 1 ≤ r.legNo := by
  rw [SubagentRequest.legNo]
  split_ifs <;> omega

theorem Run.Ok.mem (h : p.Ok w) : p.item ∈ w.store.items.rows := (find?_eq_some.mp h.item).1

theorem Run.Ok.queued (h : p.Ok w) : Queued w p.session p.leg := ⟨p.item, h.mem, rfl, rfl⟩

theorem Sound.started_of_queued (h : Sound w s) (hm : Queued w s m) (hn : 1 ≤ n) (hnm : n < m) :
    .started n ∈ w.log s := by
  induction m with
  | zero => omega
  | succ m ih =>
    have hlog := h.started m (h.handed m (by omega) hm)
    rcases lt_or_ge n m with hlt | hge
    · exact ih (h.marked m hlog).1 hlt
    · obtain rfl : n = m := by omega
      exact hlog

theorem Sound.queued_of_le (h : Sound w s) (hm : Queued w s m) (hn : 1 ≤ n) (hnm : n ≤ m) : Queued w s n := by
  rcases lt_or_ge n m with hlt | hge
  · exact (h.marked n (h.started_of_queued hm hn hlt)).1
  · obtain rfl : n = m := by omega
    exact hm

theorem Sound.le_of_last (h : Sound w s) (hlast : ¬Queued w s (n + 1)) (hm : Queued w s m) : m ≤ n := by
  by_contra hlt
  exact hlast (h.queued_of_le hm (by omega) (by omega))

section
variable (h : Sound w p.session) (hp : p.Ok w) (hq : q.Ok w) (hs : q.session = p.session)
include h hp hq hs

theorem Sound.leg_ne (hne : p.Beside q) :
    q.leg ≠ p.leg :=
      fun hleg => hne (congrArg WorkItem.id (h.one p.item hp.mem q.item hq.mem rfl hs hleg.symm))

theorem Sound.earlier (hne : p.Beside q) (hwork : p.phase.Working) :
    q.leg ≤ w.mark p.session ∧ ¬q.phase.Working := by
  have hle := h.le_of_last (hp.last hwork) (hs ▸ hq.queued)
  have hlt : q.leg < p.leg := by
    have := h.leg_ne hp hq hs hne
    omega
  have hlog := h.started_of_queued hp.queued (legNo_pos _) hlt
  refine ⟨(h.marked _ hlog).2, fun hwork' => ?_⟩
  refine hq.last hwork' ?_
  rw [hs]
  exact h.queued_of_le hp.queued (by omega) hlt

end

/-! ### Keys -/

theorem Keyed.queued_iff (h : Keyed w) (hs : '#' ∉ s) (hn : 1 ≤ n) (hit : it ∈ w.store.items.rows) :
    it.dedupKey = legKey s (n + 1) ↔ it.payload.sessionID = s ∧ it.payload.legNo = n + 1 := by
  obtain ⟨hkey, hid⟩ := h it hit
  rw [hkey, itemKey]
  split_ifs with hone
  · refine ⟨fun heq => ?_, fun ⟨_, hleg⟩ => by omega⟩
    have hmem : '#' ∈ legKey s (n + 1) := mem_append_right _ mem_cons_self
    exact absurd (heq ▸ hmem) hid
  · refine ⟨fun heq => ?_, ?_⟩
    · obtain ⟨hsame, hdigits⟩ := append_sep_inj hid hs heq
      rw [← natOfDigits_decimal it.payload.legNo, hdigits, natOfDigits_decimal]
      exact ⟨hsame, rfl⟩
    rintro ⟨rfl, hleg⟩
    rw [hleg]

theorem Keyed.hasWorkItem (h : Keyed w) (hs : '#' ∉ s) (hn : 1 ≤ n) :
    hasWorkItem (legKey s (n + 1)) w.store.items ↔ Queued w s (n + 1) := by
  rw [Subagents.hasWorkItem, List.any_eq_true]
  refine exists_congr fun it => and_congr_right fun hit => ?_
  rw [decide_eq_true_eq, h.queued_iff hs hn hit]

theorem Run.Ok.plain (h : p.Ok w) (hkeyed : Keyed w) : '#' ∉ p.session := (hkeyed p.item h.mem).2

/-! ### What the statements leave -/

section
variable {row : WorkSession} (h : w.store.sessions.find? s = some row)
include h

theorem mark_eq : w.mark s = row.startedLeg := by
  rw [World.mark, workSessionStartedLeg, h]

theorem sessionDelivered_eq : w.sessionDelivered s = (row.delivered && !isPreStartFailure row.result) := by
  rw [World.sessionDelivered, World.deliveredResult, h]
  cases hreal : row.delivered && !isPreStartFailure row.result <;> simp [hreal]

end

variable {evidence : Option Evidence} {readback result : List Char} {ph : Phase} {items : Items}

theorem deliverWorkSession_eq_ok {sessions sessions' : Sessions}
    (h : deliverWorkSession s result evidence readback sessions = .ok sessions') :
    ∃ row, sessions.find? s = some row ∧ deliverable s row ∧ ∀ t, sessions'.find? t =
      if t = s then some { row with delivered := true, result := result, evidence := evidence }
      else sessions.find? t := by
  obtain ⟨-, h⟩ := ite_error_eq_ok.mp h
  obtain ⟨-, h⟩ := ite_error_eq_ok.mp h
  obtain ⟨hone, h⟩ := ite_error_eq_ok.mp h
  cases h
  have hid (r : WorkSession) (hr : deliverable s r) : r.id = s := by
    rw [deliverable, Bool.and_eq_true, decide_eq_true_eq] at hr
    exact hr.1
  obtain ⟨row, hrow, hmay⟩ := (affected_eq_one hid).mp (not_not.mp hone)
  exact ⟨row, hrow, hmay, find?_update_one _ hid hrow hmay⟩

theorem deliver_eq_ok (h : World.deliver s result evidence readback w = .ok w') :
    ∃ row sessions, w.store.sessions.find? s = some row ∧
      w' = (w.setSessions sessions).note s (.wrote result evidence) ∧
      ∀ t, sessions.find? t =
        if t = s then some { row with delivered := true, result := result, evidence := evidence }
        else w.store.sessions.find? t := by
  obtain ⟨sessions, hstore, rfl⟩ := map_eq_ok.mp h
  obtain ⟨row, hrow, -, hfind⟩ := deliverWorkSession_eq_ok hstore
  exact ⟨row, sessions, hrow, rfl, hfind⟩

theorem markStarted_eq_ok (h : World.markStarted s n w = .ok w') :
    ∃ row sessions, w.store.sessions.find? s = some row ∧ w' = w.setSessions sessions ∧
      ∀ t, sessions.find? t =
        if t = s then some { row with startedLeg := max row.startedLeg n } else w.store.sessions.find? t := by
  obtain ⟨sessions, hstore, rfl⟩ := map_eq_ok.mp h
  obtain ⟨hone, hstore⟩ := ite_error_eq_ok.mp hstore
  cases hstore
  have hid (r : WorkSession) (hr : decide (r.id = s)) : r.id = s := decide_eq_true_eq.mp hr
  obtain ⟨row, hrow, hmay⟩ := (affected_eq_one hid).mp (not_not.mp hone)
  exact ⟨row, _, hrow, rfl, find?_update_one _ hid hrow hmay⟩

theorem enqueueWork_eq_ok (hfree : ∀ r ∈ w.store.items.rows, r.dedupKey ≠ it.dedupKey)
    (h : enqueueWork it w.store.items = .ok items) :
    ∃ hnew, items = w.store.items.push it hnew := by
  rw [enqueueWork] at h
  split at h
  · cases h
  rename_i items' hins
  cases h
  rw [Store.Queue.enqueueWork] at hins
  split_ifs at hins with hkind hdup
  · obtain ⟨r, hr, hboth⟩ := List.any_eq_true.mp hdup.2
    simp only [Bool.and_eq_true, decide_eq_true_eq] at hboth
    exact absurd hboth.1.2 (hfree r hr)
  · exact insert?_eq_some.mp hins

/-! ### Executions beside one at work -/

structure Alike (w w' : World) (s : List Char) : Prop where
  row : w'.store.sessions.find? s = w.store.sessions.find? s
  log : w'.log s = w.log s
  queued : ∀ n, Queued w' s n ↔ Queued w s n

theorem Alike.mark (h : Alike w w' s) : w'.mark s = w.mark s := by
  rw [World.mark, World.mark, workSessionStartedLeg, workSessionStartedLeg, h.row]

theorem Alike.delivered (h : Alike w w' s) : w'.sessionDelivered s = w.sessionDelivered s := by
  rw [World.sessionDelivered, World.sessionDelivered, World.deliveredResult, World.deliveredResult, h.row]

theorem Alike.sound (h : Alike w w' s) (hs : Sound w s)
    (hone : ∀ a ∈ w'.store.items.rows, ∀ b ∈ w'.store.items.rows, a.payload.sessionID = s →
      b.payload.sessionID = s → a.payload.legNo = b.payload.legNo → a = b) :
    Sound w' s where
  one := hone
  handed n hn hq := by
    rw [h.log]
    exact hs.handed n hn ((h.queued _).mp hq)
  started n := by
    rw [h.log]
    exact hs.started n
  marked n := by
    rw [h.log, h.queued, h.mark]
    exact hs.marked n
  real r e := by
    rw [h.log, h.delivered]
    exact hs.real r e
  legal := by
    rw [h.log]
    exact hs.legal
  unspawned hnone := by
    rw [h.row] at hnone
    rw [h.log]
    exact ⟨(hs.unspawned hnone).1, fun n hq => (hs.unspawned hnone).2 n ((h.queued n).mp hq)⟩

theorem Alike.ok (h : Alike w w' p.session) (hp : p.Ok w) (hlive : w'.live = w.live)
    (hrunning : w'.running.Stays p.item.id) (hitem : w'.store.items.find? p.item.id = some p.item) :
        p.Ok w' where
  live := by
    rw [hlive]
    exact hp.live
  item := hitem
  claimed := hp.claimed
  running := hrunning
  fresh := by
    rw [h.log]
    exact hp.fresh
  undelivered := by
    rw [h.delivered]
    exact hp.undelivered
  inner := by
    rw [h.log]
    exact hp.inner
  starting := by
    rw [h.mark, h.delivered]
    exact hp.starting
  marked := by
    rw [h.mark]
    exact hp.marked
  last hwork := by
    rw [h.queued]
    exact hp.last hwork

structure Agree (w w' : World) (s : List Char) : Prop where
  row : w'.store.sessions.find? s = w.store.sessions.find? s
  log : w'.log s = w.log s
  items : ∀ it, it.payload.sessionID = s → (it ∈ w'.store.items.rows ↔ it ∈ w.store.items.rows)

theorem Agree.alike (h : Agree w w' s) : Alike w w' s where
  row := h.row
  log := h.log
  queued _ := exists_congr fun it => ⟨fun ⟨hit, hs, hn⟩ => ⟨(h.items it hs).mp hit, hs, hn⟩,
    fun ⟨hit, hs, hn⟩ => ⟨(h.items it hs).mpr hit, hs, hn⟩⟩

theorem Agree.sound (h : Agree w w' s) (hs : Sound w s) : Sound w' s :=
  h.alike.sound hs fun a ha b hb has hbs => hs.one a ((h.items a has).mp ha) b ((h.items b hbs).mp hb) has hbs

theorem Phase.Open.working (h : ph.Open) : ph.Working := by
  cases ph <;> first
    | exact .inl trivial
    | exact .inr (.inl trivial)
    | exact absurd h not_false

/-- What an execution at work does: it keeps the rows of all items and what is known of
other sessions. -/
structure Writes (p : Run) (w w' : World) : Prop where
  live : w'.live = w.live
  running : w'.running = w.running
  kept : ∀ id it, w.store.items.find? id = some it → w'.store.items.find? id = some it
  other : ∀ s, s ≠ p.session → Agree w w' s
  mark : w.mark p.session ≤ w'.mark p.session
  keyed : Keyed w'
  own : Sound w' p.session

theorem Writes.sound (h : Writes p w w') (hS : ∀ s, Sound w s) (s : List Char) : Sound w' s := by
  by_cases hs : s = p.session
  · rw [hs]
    exact h.own
  · exact (h.other s hs).sound (hS s)

theorem Writes.beside (h : Writes p w w') (hS : ∀ s, Sound w s) (hp : p.Ok w)
    (hwork : p.phase.Working) (hq : q.Ok w)
    (hne : p.Beside q) : q.Ok w' := by
  have hitem := h.kept _ _ hq.item
  by_cases hs : q.session = p.session
  · obtain ⟨hleg, hidle⟩ := (hS p.session).earlier hp hq hs hne hwork
    have hmark : q.leg ≤ w'.mark q.session := by
      rw [hs]
      exact le_trans hleg h.mark
    exact ⟨h.live ▸ hq.live, hitem, hq.claimed, h.running ▸ hq.running, fun hf => absurd (.inl hf) hidle,
      fun ho => absurd ho.working hidle, fun hi => absurd (.inr (.inl hi)) hidle, fun _ =>
      .inl hmark, fun _ => hmark, fun hw => absurd hw hidle⟩
  · exact (h.other _ hs).alike.ok hq h.live (h.running ▸ hq.running) hitem

/-! ### The writes of an execution -/

theorem log_note (w : World) (s : List Char) (e : Event) :
    (w.note s e).log s = w.log s ++ [e] := Function.update_self _ _ _

theorem log_note_of_ne {t : List Char} (h : t ≠ s) (e : Event) :
    (w.note s e).log t = w.log t := Function.update_of_ne h _ _

theorem mem_concat {e e' : Event} {l : List Event} : e ∈ l ++ [e'] ↔ e ∈ l ∨ e = e' := by
  rw [mem_append, mem_singleton]

/-- One event more in the log, with the items and the mark as they were. -/
theorem Sound.note {e : Event} (hs : Sound w s) (hitems : w'.store.items = w.store.items)
    (hlog : w'.log s = w.log s ++ [e]) (hmark : w'.mark s = w.mark s) (hhanded : ∀ n, e ≠ .handed n)
    (hstarted : ∀ n, e = .started n → Queued w s n ∧ n ≤ w.mark s)
    (hreal : ∀ r ev, .wrote r ev ∈ w.log s ∨ .wrote r ev = e → isPreStartFailure r = false →
      w'.sessionDelivered s)
    (hallowed : Allowed (w.log s) e) (hrow : w'.store.sessions.find? s ≠ none) : Sound w' s := by
  have hqueued (n : Nat) : Queued w' s n ↔ Queued w s n := by rw [Queued, Queued, hitems]
  have hmem (e' : Event) : e' ∈ w'.log s ↔ e' ∈ w.log s ∨ e' = e := by
    rw [hlog]
    exact mem_concat
  refine ⟨hitems ▸ hs.one, fun n hn hq => ?_, fun n hn => ?_, fun n hn => ?_, fun r ev hwrote => ?_, ?_,
    fun hnone => absurd hnone hrow⟩
  · exact (hmem _).mpr (.inl (hs.handed n hn ((hqueued _).mp hq)))
  · rcases (hmem _).mp hn with hn | hn
    · exact (hmem _).mpr (.inl (hs.started n hn))
    · exact absurd hn.symm (hhanded n)
  · rw [hqueued, hmark]
    rcases (hmem _).mp hn with hn | hn
    · exact hs.marked n hn
    · exact hstarted n hn.symm
  · exact hreal r ev ((hmem _).mp hwrote)
  · rw [hlog]
    exact hs.legal.concat hallowed

theorem Run.Ok.spawned (h : p.Ok w) (hS : Sound w p.session) : w.store.sessions.find? p.session ≠ none :=
  fun hnone => (hS.unspawned hnone).2 p.leg h.queued

section
variable (hK : Keyed w) (hS : ∀ s, Sound w s)
include hK hS

theorem writes_deliver (hmay : isPreStartFailure result → w.sessionDelivered p.session = false)
    (h : World.deliver p.session result evidence readback w = .ok w') :
    Writes p w w' ∧ w'.store.items = w.store.items ∧ w'.log p.session = w.log p.session ++
      [.wrote result evidence] ∧ w'.mark p.session = w.mark p.session := by
  obtain ⟨row, sessions, hrow, rfl, hrows⟩ := deliver_eq_ok h
  have hown : ((w.setSessions sessions).note p.session
    (.wrote result evidence)).store.sessions.find? p.session =
      some { row with delivered := true, result := result, evidence := evidence } := by
    refine (hrows p.session).trans ?_
    rw [if_pos rfl]
  have hlog := log_note (w.setSessions sessions) p.session (.wrote result evidence)
  have hmark : ((w.setSessions sessions).note p.session (.wrote result evidence)).mark p.session =
      w.mark p.session := by
    rw [mark_eq hown, mark_eq hrow]
  have hs := hS p.session
  refine ⟨⟨rfl, rfl, fun _ _ h => h, fun s hne => ⟨?_, log_note_of_ne hne _, fun _ _ => .rfl⟩, ?_,
    hK, ?_⟩, rfl, hlog, hmark⟩
  · refine (hrows s).trans ?_
    rw [if_neg hne]
  · rw [hmark]
  · refine hs.note rfl hlog hmark (by rintro _ ⟨⟩) (by rintro _ ⟨⟩)
      (fun r e hwrote hreal => ?_) trivial (by simp [hown])
    -- a failure before the start is written only where nothing else stands
    rw [sessionDelivered_eq hown, Bool.true_and, Bool.not_eq_true']
    rcases hwrote with hwrote | hwrote
    · by_contra hpre
      have hopen := hmay (Bool.eq_true_of_not_eq_false hpre)
      rw [hs.real r e hwrote hreal] at hopen
      cases hopen
    · cases hwrote
      exact hreal

theorem writes_mark (h : World.markStarted p.session n w = .ok w') :
    Writes p w w' ∧ w'.store.items = w.store.items ∧ w'.log = w.log ∧ n ≤ w'.mark p.session ∧
      w'.sessionDelivered p.session = w.sessionDelivered p.session := by
  obtain ⟨row, sessions, hrow, rfl, hrows⟩ := markStarted_eq_ok h
  have hown : (w.setSessions sessions).store.sessions.find? p.session =
      some { row with startedLeg := max row.startedLeg n } := by
    refine (hrows p.session).trans ?_
    rw [if_pos rfl]
  have hmark : (w.setSessions sessions).mark p.session = max (w.mark p.session) n := by
    rw [mark_eq hown, mark_eq hrow]
  have hdelivered : (w.setSessions sessions).sessionDelivered p.session = w.sessionDelivered p.session := by
    rw [sessionDelivered_eq hown, sessionDelivered_eq hrow]
  have hs := hS p.session
  refine ⟨⟨rfl, rfl, fun _ _ h => h, fun s hne => ⟨?_, rfl, fun _ _ => .rfl⟩, ?_, hK, ?_⟩, rfl, rfl,
    ?_, hdelivered⟩
  · refine (hrows s).trans ?_
    rw [if_neg hne]
  · rw [hmark]
    exact le_max_left _ _
  · refine ⟨hs.one, hs.handed, hs.started, fun n hn => ?_, fun r e hwrote hreal => ?_, hs.legal,
      fun hnone => ?_⟩
    · rw [hmark]
      exact ⟨(hs.marked n hn).1, le_trans (hs.marked n hn).2 (le_max_left _ _)⟩
    · rw [hdelivered]
      exact hs.real r e hwrote hreal
    · rw [hown] at hnone
      cases hnone
  · rw [hmark]
    exact le_max_right _ _

theorem writes_started (hp : p.Ok w) (hphase : p.phase = .entering) :
    Writes p w (w.note p.session (.started p.leg)) := by
  have hlog := log_note w p.session (.started p.leg)
  have hs := hS p.session
  have hfresh : p.phase.Fresh := by
    rw [hphase]
    trivial
  refine ⟨rfl, rfl, fun _ _ h => h, fun s hne => ⟨rfl, log_note_of_ne hne _, fun _ _ => .rfl⟩,
    le_refl _, hK, ?_⟩
  refine hs.note rfl hlog rfl (by rintro _ ⟨⟩) (fun n hn => ?_) (fun r e hwrote hreal => ?_) ?_
    (hp.spawned hs)
  · cases hn
    exact ⟨hp.queued, hp.marked (.inr (.inr hphase))⟩
  · rcases hwrote with hwrote | hwrote
    · exact hs.real r e hwrote hreal
    · cases hwrote
  · refine ⟨hp.fresh hfresh, ?_, fun r e hwrote => ?_⟩
    · rcases lt_or_ge 1 p.leg with hlater | hfirst
      · obtain ⟨m, hm⟩ : ∃ m, p.leg = m + 1 := ⟨p.leg - 1, by omega⟩
        exact .inr ⟨m, hm, hs.handed m (by omega) (hm ▸ hp.queued)⟩
      · have := legNo_pos p.item.payload
        exact .inl (le_antisymm hfirst this)
    · by_contra hreal
      have hopen := hp.undelivered (by rw [hphase]; trivial)
      rw [hs.real r e hwrote (Bool.eq_false_of_not_eq_true hreal)] at hopen
      cases hopen

theorem writes_enqueue (hp : p.Ok w) (hinner : p.phase.Inner)
    (h : World.enqueueNext p i w = .ok w') : Writes p w w' := by
  obtain ⟨items, henqueue, rfl⟩ := map_eq_ok.mp h
  have hs := hS p.session
  have hpos : 1 ≤ p.leg := legNo_pos _
  have hlast := hp.last (.inr (.inl hinner))
  have hfree : ∀ r ∈ w.store.items.rows, r.dedupKey ≠ (p.nextItem i.newID).dedupKey := fun r hr hkey =>
    hlast ⟨r, hr, (hK.queued_iff (hp.plain hK) hpos hr).mp hkey⟩
  obtain ⟨hnew, rfl⟩ := enqueueWork_eq_ok hfree henqueue
  have hrows (b : WorkItem) : b ∈ (w.store.items.push _ hnew).rows ↔ b ∈ w.store.items.rows ∨
      b = p.nextItem i.newID :=
    mem_push hnew
  have hleg : (p.nextItem i.newID).payload.legNo = p.leg + 1 := if_neg (not_lt.mpr (Nat.le_add_left 1 p.leg))
  have hlog := log_note (w.setItems (w.store.items.push _ hnew)) p.session (.handed p.leg)
  have hqueued (n : Nat) (hq : Queued w p.session n) :
      Queued ((w.setItems (w.store.items.push _ hnew)).note p.session (.handed p.leg)) p.session n := by
    obtain ⟨b, hb, hbn⟩ := hq
    exact ⟨b, (hrows b).mpr (.inl hb), hbn⟩
  refine ⟨rfl, rfl, fun id b hb => ?_, fun s hne => ⟨rfl, log_note_of_ne hne _, fun b hbs => ?_⟩,
    le_refl _, ?_, ?_⟩
  · refine (find?_push hnew id).trans ?_
    rw [if_neg, hb]
    rintro rfl
    exact hnew (Table.holds_iff.mpr ⟨b, (find?_eq_some.mp hb).1, (find?_eq_some.mp hb).2⟩)
  · refine (hrows b).trans (or_iff_left ?_)
    rintro rfl
    exact hne hbs.symm
  · intro b hb
    rcases (hrows b).mp hb with hb | rfl
    · exact hK b hb
    · refine ⟨?_, hp.plain hK⟩
      rw [itemKey, if_neg (by omega)]
      rfl
  · refine ⟨fun a ha b hb has hbs hab => ?_, fun n hn hq => ?_, fun n hn => ?_, fun n hn => ?_,
      fun r e hwrote hreal => ?_, ?_, fun hnone => ?_⟩
    · -- the new item is the only one of its leg
      rcases (hrows a).mp ha with ha | rfl <;> rcases (hrows b).mp hb with hb | rfl
      · exact hs.one a ha b hb has hbs hab
      · exact absurd ⟨a, ha, has, hab.trans hleg⟩ hlast
      · exact absurd ⟨b, hb, hbs, hab.symm.trans hleg⟩ hlast
      · rfl
    · rw [hlog]
      obtain ⟨b, hb, hbs, hbn⟩ := hq
      rcases (hrows b).mp hb with hb | rfl
      · exact mem_concat.mpr (.inl (hs.handed n hn ⟨b, hb, hbs, hbn⟩))
      · obtain rfl : n = p.leg := by omega
        exact mem_concat.mpr (.inr rfl)
    · rw [hlog] at hn ⊢
      rcases mem_concat.mp hn with hn | hn
      · exact mem_concat.mpr (.inl (hs.started n hn))
      · cases hn
        exact mem_concat.mpr (.inl (hp.inner hinner))
    · rw [hlog] at hn
      rcases mem_concat.mp hn with hn | hn
      · exact ⟨hqueued n (hs.marked n hn).1, (hs.marked n hn).2⟩
      · cases hn
    · rw [hlog] at hwrote
      rcases mem_concat.mp hwrote with hwrote | hwrote
      · exact hs.real r e hwrote hreal
      · cases hwrote
    · rw [hlog]
      exact hs.legal.concat (hp.inner hinner)
    · exact absurd hnone (hp.spawned hs)

end

/-! ### One step of an execution -/

theorem exec_cases (op : World → Except StoreError World) :
    ((w.exec i op).2 = w ∧ ∃ e, (w.exec i op).1 = .error e) ∨ ∃ w', op w = .ok w' ∧ (w.exec i op).2 = w' := by
  rcases i.ending.of_cases .failed w ((op w).map fun w' => ((), w')) with h | ⟨a, w', hop, hw', -⟩
  · exact .inl h
  · obtain ⟨w'', hop, heq⟩ := map_eq_ok.mp hop
    cases heq
    exact .inr ⟨w', hop, hw'⟩

def Acts (p : Run) (w w' : World) : Prop := w' = w ∨ (p.phase.Working ∧ Writes p w w')

theorem Run.Ok.go (hp : p.Ok w) (hacts : Acts p w w') (fresh : ph.Fresh → .started p.leg ∉ w'.log p.session)
    (undelivered : ph.Open → w'.sessionDelivered p.session = false)
    (inner : ph.Inner → .started p.leg ∈ w'.log p.session)
    (starting : ph = .starting → p.leg ≤ w'.mark p.session ∨ w'.sessionDelivered p.session = false)
    (marked : ph = .recovering ∨ ph = .interrupting ∨ ph = .entering → p.leg ≤ w'.mark p.session)
    (last : ph.Working → ¬Queued w' p.session (p.leg + 1)) : ({ p with phase := ph } : Run).Ok w' := by
  rcases hacts with rfl | ⟨-, hwrites⟩
  · exact ⟨hp.live, hp.item, hp.claimed, hp.running, fresh, undelivered, inner, starting, marked, last⟩
  · exact ⟨hwrites.live ▸ hp.live, hwrites.kept _ _ hp.item, hp.claimed,
      hwrites.running ▸ hp.running, fresh, undelivered, inner, starting, marked, last⟩

def Phase.Idle (ph : Phase) : Prop := ¬ph.Working ∧ ph ≠ .starting ∧ ph ≠ .recovering

theorem idle_ending (e : Option RunError) : (Phase.ending e).Idle := by
  refine ⟨?_, nofun, nofun⟩
  rintro (h | h | h) <;> cases h

theorem idle_closing : Phase.closing.Idle := by
  refine ⟨?_, nofun, nofun⟩
  rintro (h | h | h) <;> cases h

section
variable (hp : p.Ok w) (hacts : Acts p w w')
include hp hacts

theorem Run.Ok.rest (hidle : ph.Idle) : ({ p with phase := ph } : Run).Ok w' := by
  obtain ⟨hwork, hstarting, hrecovering⟩ := hidle
  refine hp.go hacts (fun h => absurd (.inl h) hwork) (fun h => absurd h.working hwork)
    (fun h => absurd (.inr (.inl h)) hwork) (fun h => absurd h hstarting) ?_ fun h => absurd h hwork
  rintro (h | h | h)
  · exact absurd h hrecovering
  · exact absurd (.inr (.inr h)) hwork
  · refine absurd (.inl ?_) hwork
    rw [h]
    trivial

theorem Run.Ok.refresh (hph : ph.Fresh)
    (hstarted : .started p.leg ∉ w'.log p.session) (hopen : w'.sessionDelivered p.session = false)
    (hlast : ¬Queued w' p.session (p.leg + 1)) (hmarked : ph = .entering → p.leg ≤ w'.mark p.session) :
    ({ p with phase := ph } : Run).Ok w' := by
  refine hp.go hacts (fun _ => hstarted) (fun _ => hopen) ?_ (fun _ => .inr hopen) ?_ fun _ => hlast
  · intro hinner
    cases ph <;> first
      | exact absurd hph not_false
      | exact absurd hinner not_false
  · rintro (rfl | rfl | h)
    · exact absurd hph not_false
    · exact absurd hph not_false
    · exact hmarked h

theorem Run.Ok.inside (hph : ph.Inner)
    (hstarted : .started p.leg ∈ w'.log p.session) (hopen : ph.Open → w'.sessionDelivered p.session = false)
    (hlast : ¬Queued w' p.session (p.leg + 1)) : ({ p with phase := ph } : Run).Ok w' := by
  refine hp.go hacts ?_ hopen (fun _ => hstarted) ?_ ?_ fun _ => hlast
  · intro hfresh
    cases ph <;> first
      | exact absurd hph not_false
      | exact absurd hfresh not_false
  · rintro rfl
    exact absurd hph not_false
  · rintro (rfl | rfl | rfl) <;> exact absurd hph not_false

end

def Steps (p : Run) (w : World) (r : World × Phase) :
    Prop := Acts p w r.1 ∧ ({ p with phase := r.2 } : Run).Ok r.1

theorem Run.Ok.same (hp : p.Ok w) (hidle : ph.Idle) :
    Steps p w (w, ph) := ⟨.inl rfl, hp.rest (.inl rfl) hidle⟩

theorem steps_starting (hS : ∀ s, Sound w s) (hp : p.Ok w) (hphase : p.phase = .starting) :
    Steps p w (stepPhase i w p) := by
  rw [stepPhase, hphase]
  simp only
  split
  · exact hp.same (idle_ending _)
  split_ifs with hmark
  · refine ⟨.inl rfl, hp.go (.inl rfl) nofun nofun nofun nofun (fun _ => hmark) ?_⟩
    rintro (h | h | h) <;> cases h
  · have hstarted : .started p.leg ∉ w.log p.session := fun h => hmark ((hS p.session).marked _ h).2
    refine ⟨.inl rfl, hp.refresh (.inl rfl) trivial hstarted
      ((hp.starting hphase).resolve_left hmark) (fun hq => ?_) nofun⟩
    exact hstarted ((hS p.session).started _ ((hS p.session).handed _ (legNo_pos _) hq))

section
variable (hK : Keyed w)
include hK

theorem steps_recovering (hp : p.Ok w) (hphase : p.phase = .recovering) : Steps p w (stepPhase i w p) := by
  rw [stepPhase, hphase]
  simp only
  split
  · exact hp.same (idle_ending _)
  split_ifs with hnext
  · exact hp.same (idle_ending _)
  · have hlast : ¬Queued w p.session (p.leg + 1) := fun hq =>
      hnext ((hK.hasWorkItem (hp.plain hK) (legNo_pos _)).mpr hq)
    exact ⟨.inl rfl, hp.go (.inl rfl) nofun nofun nofun nofun (fun _ => hp.marked (.inl hphase))
      fun _ => hlast⟩

section
variable (hS : ∀ s, Sound w s) (hp : p.Ok w)
include hS hp

theorem steps_deliver {e : Option RunError} (hwork : p.phase.Working)
    (hmay : isPreStartFailure result → w.sessionDelivered p.session = false) :
    Steps p w ((w.exec i (World.deliver p.session result evidence readback)).2, .ending e) := by
  rcases exec_cases (w := w) (i := i) (World.deliver p.session result evidence readback)
    with ⟨hsame, -⟩ | ⟨w', hop, hw'⟩
  · rw [hsame]
    exact hp.same (idle_ending e)
  · rw [hw']
    have hacts : Acts p w w' := .inr ⟨hwork, (writes_deliver hK hS hmay hop).1⟩
    exact ⟨hacts, hp.rest hacts (idle_ending e)⟩

theorem steps_marking (hphase : p.phase = .marking) : Steps p w (stepPhase i w p) := by
  have hfresh : p.phase.Fresh := by
    rw [hphase]
    trivial
  have hopen : p.phase.Open := by
    rw [hphase]
    trivial
  have hwork : p.phase.Working := .inl hfresh
  have hstarted := hp.fresh hfresh
  have hundelivered := hp.undelivered hopen
  have hlast := hp.last hwork
  rw [stepPhase, hphase]
  rcases exec_cases (w := w) (i := i) (World.markStarted p.session p.leg)
    with ⟨hsame, e, herror⟩ | ⟨w', hop, hw'⟩
  · cases hexec : w.exec i (World.markStarted p.session p.leg) with
    | mk a w₁ =>
      rw [hexec] at hsame herror
      simp only at hsame herror
      rw [herror, hsame]
      exact ⟨.inl rfl, hp.refresh (.inl rfl) trivial hstarted hundelivered hlast nofun⟩
  · obtain ⟨hwrites, hitems, hlog, hmark, hdelivered⟩ := writes_mark hK hS hop
    have hacts : Acts p w w' := .inr ⟨hwork, hwrites⟩
    rw [← hlog] at hstarted
    rw [← hdelivered] at hundelivered
    rw [Queued, ← hitems] at hlast
    cases hexec : w.exec i (World.markStarted p.session p.leg) with
    | mk a w₁ =>
      rw [hexec] at hw'
      simp only at hw'
      rw [hw']
      cases a with
      | error e => exact ⟨hacts, hp.refresh hacts trivial hstarted hundelivered hlast nofun⟩
      | ok a => exact ⟨hacts, hp.refresh hacts trivial hstarted hundelivered hlast fun _ => hmark⟩

theorem steps_entering (hphase : p.phase = .entering) : Steps p w (stepPhase i w p) := by
  have hwork : p.phase.Working := by
    rw [hphase]
    exact .inl trivial
  rw [stepPhase, hphase]
  have hacts : Acts p w (w.note p.session (.started p.leg)) := .inr ⟨hwork, writes_started hK hS hp hphase⟩
  refine ⟨hacts, hp.inside hacts trivial ?_ nofun (hp.last hwork)⟩
  rw [log_note]
  exact mem_concat.mpr (.inr rfl)

theorem steps_looping (hphase : p.phase = .looping) : Steps p w (stepPhase i w p) := by
  have hinner : p.phase.Inner := by
    rw [hphase]
    trivial
  have hwork : p.phase.Working := .inr (.inl hinner)
  have hsame : Steps p w (w, .looping) :=
    ⟨.inl rfl, hp.inside (.inl rfl) trivial (hp.inner hinner) nofun (hp.last hwork)⟩
  rw [stepPhase, hphase]
  cases i.child with
  | none => exact ⟨.inl rfl, hp.inside (.inl rfl) trivial (hp.inner hinner) nofun (hp.last hwork)⟩
  | some d =>
    simp only [childDelivers]
    split_ifs with hverdict
    · cases workerEvidence d.evidence with
      | none => exact hsame
      | some e =>
        rcases exec_cases (w := w) (i := i) (World.deliver p.session d.result (some e) d.readback) with
          ⟨heq, -⟩ | ⟨w', hop, hw'⟩
        · simp only [heq]
          exact hsame
        · -- the child's own results are never failures before the start
          have hreal : isPreStartFailure d.result ≠ true := by
            intro h
            rw [h, Bool.not_true, Bool.and_false] at hverdict
            cases hverdict
          obtain ⟨hwrites, hitems, hlog, -⟩ := writes_deliver hK hS (fun h => absurd h hreal) hop
          have hacts : Acts p w w' := .inr ⟨hwork, hwrites⟩
          have hlast := hp.last hwork
          rw [Queued, ← hitems] at hlast
          simp only [hw']
          refine ⟨hacts, hp.inside hacts trivial ?_ nofun hlast⟩
          rw [hlog]
          exact mem_concat.mpr (.inl (hp.inner hinner))
    · exact hsame

theorem steps_phase : Steps p w (stepPhase i w p) := by
  -- where a phase only decides the world stays; where it writes, the lemma of its operation is used
  cases hphase : p.phase with
  | checking =>
    rw [stepPhase, hphase]
    cases p.item.payload.validate with
    | error e => exact hp.same (idle_ending _)
    | ok u =>
      by_cases hdelivered : w.sessionDelivered p.session
      · rw [if_pos hdelivered]
        exact hp.same idle_closing
      · rw [if_neg hdelivered]
        refine ⟨.inl rfl, hp.go (.inl rfl) nofun nofun nofun
          (fun _ => .inr (Bool.eq_false_of_not_eq_true hdelivered)) ?_ ?_⟩
        · rintro (h | h | h) <;> cases h
        · rintro (h | h | h) <;> cases h
  | closing =>
    rw [stepPhase, hphase]
    exact hp.same (idle_ending _)
  | starting => exact steps_starting hS hp hphase
  | recovering => exact steps_recovering hK hp hphase
  | interrupting =>
    rw [stepPhase, hphase]
    refine steps_deliver hK hS hp (.inr (.inr hphase)) fun hpre => ?_
    cases hpre
  | preparing =>
    have hwork : p.phase.Working := by
      rw [hphase]
      exact .inl trivial
    have hstarted := hp.fresh (by rw [hphase]; trivial)
    have hopen := hp.undelivered (by rw [hphase]; trivial)
    rw [stepPhase, hphase]
    cases i.cause with
    | some cause => exact ⟨.inl rfl, hp.refresh (.inl rfl) trivial hstarted hopen (hp.last hwork) nofun⟩
    | none => exact ⟨.inl rfl, hp.refresh (.inl rfl) trivial hstarted hopen (hp.last hwork) nofun⟩
  | failing cause =>
    have hwork : p.phase.Working := by
      rw [hphase]
      exact .inl trivial
    have hopen := hp.undelivered (by rw [hphase]; trivial)
    rw [stepPhase, hphase]
    simp only
    split
    · exact hp.same (idle_ending _)
    · exact steps_deliver hK hS hp hwork fun _ => hopen
  | marking => exact steps_marking hK hS hp hphase
  | entering => exact steps_entering hK hS hp hphase
  | looping => exact steps_looping hK hS hp hphase
  | looped r =>
    have hinner : p.phase.Inner := by
      rw [hphase]
      trivial
    have hlast := hp.last (.inr (.inl hinner))
    rw [stepPhase, hphase]
    simp only
    by_cases hdelivered : w.sessionDelivered p.session
    · rw [if_pos hdelivered]
      exact hp.same (idle_ending _)
    have hopen := Bool.eq_false_of_not_eq_true hdelivered
    split_ifs
    · exact ⟨.inl rfl, hp.inside (.inl rfl) trivial (hp.inner hinner) (fun _ => hopen) hlast⟩
    · exact ⟨.inl rfl, hp.inside (.inl rfl) trivial (hp.inner hinner) (fun _ => hopen) hlast⟩
  | enqueueing r =>
    have hinner : p.phase.Inner := by
      rw [hphase]
      trivial
    have hwork : p.phase.Working := .inr (.inl hinner)
    have hopen := hp.undelivered (by rw [hphase]; trivial)
    have hstay : Steps p w (w, .delivering r) :=
      ⟨.inl rfl, hp.inside (.inl rfl) trivial (hp.inner hinner) (fun _ => hopen) (hp.last hwork)⟩
    rw [stepPhase, hphase]
    simp only
    split
    · cases hnext : World.enqueueNext p i w with
      | error e => exact hstay
      | ok w' =>
        have hacts : Acts p w w' := .inr ⟨hwork, writes_enqueue hK hS hp hinner hnext⟩
        exact ⟨hacts, hp.rest hacts (idle_ending _)⟩
    · exact hstay
  | delivering r =>
    have hwork : p.phase.Working := by
      rw [hphase]
      exact .inr (.inl trivial)
    have hopen := hp.undelivered (by rw [hphase]; trivial)
    rw [stepPhase, hphase]
    exact steps_deliver hK hS hp hwork fun _ => hopen
  | ending e =>
    rw [stepPhase, hphase]
    exact hp.same (idle_ending _)

end

end

/-! ### Items that change their state -/

structure Relabels (g : WorkItem → WorkItem) (w w' : World) : Prop where
  id : ∀ r, (g r).id = r.id
  payload : ∀ r, (g r).payload = r.payload
  dedupKey : ∀ r, (g r).dedupKey = r.dedupKey
  rows : w'.store.items.rows = w.store.items.rows.map g
  sessions : w'.store.sessions = w.store.sessions
  log : w'.log = w.log

variable {g : WorkItem → WorkItem} {id : List Char}

section
variable (h : Relabels g w w')
include h

theorem Relabels.mem : it ∈ w'.store.items.rows ↔ ∃ r ∈ w.store.items.rows, g r = it := by
  rw [h.rows, List.mem_map]

theorem Relabels.alike : Alike w w' s where
  row := by rw [h.sessions]
  log := by rw [h.log]
  queued n := by
    constructor
    · rintro ⟨it, hit, hs, hn⟩
      obtain ⟨r, hr, rfl⟩ := h.mem.mp hit
      rw [h.payload] at hs hn
      exact ⟨r, hr, hs, hn⟩
    · rintro ⟨r, hr, hs, hn⟩
      exact ⟨g r, h.mem.mpr ⟨r, hr, rfl⟩, by rw [h.payload]; exact hs, by rw [h.payload]; exact hn⟩

theorem Relabels.keyed (hK : Keyed w) : Keyed w' := by
  intro it hit
  obtain ⟨r, hr, rfl⟩ := h.mem.mp hit
  rw [h.dedupKey, h.payload]
  exact hK r hr

theorem Relabels.sound (hs : Sound w s) : Sound w' s := by
  refine h.alike.sound hs fun a ha b hb has hbs hleg => ?_
  obtain ⟨a, ha', rfl⟩ := h.mem.mp ha
  obtain ⟨b, hb', rfl⟩ := h.mem.mp hb
  rw [h.payload] at has hbs
  rw [h.payload, h.payload] at hleg
  rw [hs.one a ha' b hb' has hbs hleg]

theorem Relabels.ok (hp : p.Ok w) (hmine : g p.item = p.item) (hlive : w'.live = w.live)
    (hrunning : w'.running.Stays p.item.id) : p.Ok w' :=
  h.alike.ok hp hlive hrunning (find?_eq_some.mpr ⟨h.mem.mpr ⟨p.item, hp.mem, hmine⟩, rfl⟩)

end

theorem relabels_update {c : WorkItem → Bool} {f : WorkItem → WorkItem} (hf : ∀ r, (f r).id = r.id)
    (hpayload : ∀ r, (f r).payload = r.payload) (hkey : ∀ r, (f r).dedupKey = r.dedupKey)
    (hitems : w'.store.items = w.store.items.update c f hf) (hsessions : w'.store.sessions = w.store.sessions)
    (hlog : w'.log = w.log) : Relabels (fun r => if c r then f r else r) w w' where
  id r := by
    split_ifs
    · exact hf r
    · rfl
  payload r := by
    split_ifs
    · exact hpayload r
    · rfl
  dedupKey r := by
    split_ifs
    · exact hkey r
    · rfl
  rows := congrArg Table.rows hitems
  sessions := hsessions
  log := hlog

theorem relabels_claim {now : Int} (h : claimWork id now w.store.items = some (it, items))
    (hitems : w'.store.items = items) (hsessions : w'.store.sessions = w.store.sessions)
    (hlog : w'.log = w.log) :
    it.id = id ∧ it.state = .claimed ∧ items.find? id = some it ∧
      ∃ g, Relabels g w w' ∧ (∀ r, r.state = .claimed → g r = r) ∧ ∃ r, w.store.items.find? id =
        some r ∧ r.state = .pending := by
  rw [claimWork] at h
  cases hfind : w.store.items.find? id with
  | none =>
    rw [hfind] at h
    cases h
  | some r =>
    rw [hfind] at h
    simp only at h
    split at h
    · rename_i hmay
      cases h
      have hone (r : WorkItem) (hr : (decide (r.id = id) && decide (r.state = .pending))) : r.id = id := by
        rw [Bool.and_eq_true, decide_eq_true_eq] at hr
        exact hr.1
      have hid := (find?_eq_some.mp hfind).2
      refine ⟨hid, rfl, ?_, _, relabels_update (c := fun r => r.id = id && r.state = .pending)
        (f := .claim now) (fun _ => rfl) (fun _ => rfl) (fun _ => rfl) hitems hsessions hlog, ?_, r,
          rfl, hmay.1⟩
      · rw [Store.Queue.claimWork, find?_update_one _ hone hfind (by simp [hid, hmay.1]), if_pos rfl]
      · intro r' hr'
        simp [hr']
    · cases h

theorem relabels_finish (i : Input) (w : World) (p : Run) (e : Option RunError) :
    ∃ g, Relabels g w (finish i w p e) ∧ ∀ r, r.id ≠ p.item.id → g r = r := by
  by_cases hfailed : i.ending = .failed
  · refine ⟨(·), ⟨fun _ => rfl, fun _ => rfl, fun _ => rfl, ?_, ?_, ?_⟩, fun _ _ => rfl⟩ <;>
      simp only [finish, if_pos hfailed, List.map_id']
  · cases e with
    | none =>
      refine ⟨_, relabels_update (c := fun r => r.id = p.item.id && r.state = .claimed)
        (f := .complete) (fun _ => rfl) (fun _ => rfl) (fun _ => rfl) ?_ ?_ ?_, fun r hr => ?_⟩
      · simp only [finish, if_neg hfailed, World.setItems, completeWork]
      · simp only [finish, if_neg hfailed, World.setItems]
      · simp only [finish, if_neg hfailed, World.setItems]
      · simp [hr]
    | some e =>
      refine ⟨_, relabels_update (c := fun r => r.id = p.item.id && r.state = .claimed) (f := .retried i.now)
        (fun _ => rfl) (fun _ => rfl) (fun _ => rfl) ?_ ?_ ?_, fun r hr => ?_⟩
      · simp only [finish, if_neg hfailed, World.setItems, failWork]
      · simp only [finish, if_neg hfailed, World.setItems]
      · simp only [finish, if_neg hfailed, World.setItems]
      · simp [hr]

end

end AiiOs.Subagents
