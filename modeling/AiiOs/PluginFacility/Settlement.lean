import AiiOs.PluginFacility.Executor
import Mathlib.Data.List.Nodup
import Mathlib.Data.List.Perm.Basic

/-! internal/pluginfacility, executor.go: who settles a command. `run` is followed through
all its paths; around it stand the places where a command can be between two regions under
the executor's lock. -/

namespace AiiOs.PluginFacility.Settlement
open List

/-! ### The paths of `run` -/

inductive Outcome
  | stopping
  | superseded
  | withdrawn
  | refused
  | active
  | nothingToStop
  | stopped
  | nothingServes
  | cancelled
  | readmitted
  | panicked
  deriving DecidableEq, Repr

inductive Call
  | retirementDone
  | verify
  | sameManifest
  | allows
  | prepare
  | acquire
  | admission
  | holdReservation
  | start
  | holdActivation
  | health
  | validate
  | beforeRedirect
  | commit
  | redirect
  | afterRedirect
  | retirePrevious
  | refusing
  | serves
  | reverify
  | notCancelled
  | stillAllows
  | servesStill
  | retire
  deriving DecidableEq, Repr

inductive Answer
  | ok
  | fails
  | panics
  deriving DecidableEq, Repr

inductive Panic
  | panic
  deriving DecidableEq, Repr

abbrev Answers := Call → Answer

/-- A part of a run: it appends to the outcomes its command was settled with. -/
def Exec (α : Type) := List Outcome → Except Panic α × List Outcome

def Exec.bind {α β : Type} (p : Exec α) (q : α → Exec β) : Exec β := fun log =>
  match p log with
  | (.ok x, log) => q x log
  | (.error e, log) => (.error e, log)

instance : Monad Exec where
  pure x := fun log => (.ok x, log)
  bind := Exec.bind

def settle (o : Outcome) : Exec Unit := fun log => (.ok (), log ++ [o])

section
variable (a : Answers)

def call (c : Call) : Exec Bool := fun log =>
  match a c with
  | .ok => (.ok true, log)
  | .fails => (.ok false, log)
  | .panics => (.error .panic, log)

def allOk : List Call → Exec Bool
  | [] => pure true
  | c :: cs => do
    if ← call a c then allOk cs
    else pure false

def refuse : Exec Unit := do
  let _ ← call a .refusing
  settle .refused

/-- What has to go well before the slot is taken. -/
def standUp : List Call :=
  [.retirementDone, .verify, .sameManifest, .allows, .prepare, .acquire, .admission, .holdReservation, .start,
    .holdActivation, .health, .validate, .beforeRedirect, .commit, .redirect]

def activate : Exec Unit := do
  if ← allOk a standUp then
    let serving ← call a .afterRedirect
    let _ ← call a .retirePrevious
    if serving then settle .active else refuse a
  else refuse a

def deactivate (served : Call) : Exec Unit := do
  if ← call a served then
    let _ ← call a .retire
    settle .stopped
  else settle .nothingToStop

def readmission : Exec Unit := do
  if ← call a .serves then
    let verified ← call a .reverify
    if ← call a .notCancelled then
      if ← (if verified then call a .stillAllows else pure false) then settle .readmitted
      else deactivate a .servesStill
    else settle .cancelled
  else settle .nothingServes

def perform : CommandKind → Exec Unit
  | .deactivate => deactivate a .serves
  | .readmission => readmission a
  | .activate | .update => activate a

/-- `run` behind its first region, with the recovery from a panic. -/
def run (k : CommandKind) : Exec Unit := fun log =>
  match perform a k log with
  | (.ok (), log) => (.ok (), log)
  | (.error _, log) => settle .panicked log

def outcomes (k : CommandKind) : List Outcome := (run a k []).2

end

def Quiet {α : Type} (p : Exec α) : Prop := ∀ log, (p log).2 = log

/-- The command is settled once, unless a panic comes before. -/
def Once (p : Exec Unit) : Prop :=
  ∀ log, (∃ o, p log = (.ok (), log ++ [o])) ∨ p log = (.error .panic, log)

section
variable {a : Answers} {α β : Type} {p : Exec α}

theorem quiet_pure (x : α) : Quiet (pure x) := fun _ => rfl

theorem quiet_call (c : Call) : Quiet (call a c) := by
  intro log
  unfold call
  cases a c <;> rfl

theorem Quiet.bind {q : α → Exec β} (hp : Quiet p) (hq : ∀ x, Quiet (q x)) : Quiet (p >>= q) := by
  intro log
  have hlog := hp log
  change (Exec.bind p q log).2 = log
  unfold Exec.bind
  cases hp' : p log with
  | mk r l =>
    rw [hp'] at hlog
    cases r with
    | error e => exact hlog
    | ok x => exact (hq x l).trans hlog

theorem once_settle (o : Outcome) : Once (settle o) := fun _ => .inl ⟨o, rfl⟩

theorem Quiet.once_bind {q : α → Exec Unit} (hp : Quiet p) (hq : ∀ x, Once (q x)) : Once (p >>= q) := by
  intro log
  have hlog := hp log
  change (∃ o, Exec.bind p q log = (.ok (), log ++ [o])) ∨ Exec.bind p q log = (.error .panic, log)
  unfold Exec.bind
  cases hp' : p log with
  | mk r l =>
    rw [hp'] at hlog
    cases hlog
    cases r with
    | error e => exact .inr rfl
    | ok x => exact hq x l

theorem once_ite {b : Bool} {p q : Exec Unit} (hp : Once p) (hq : Once q) : Once (if b then p else q) := by
  cases b with
  | false => exact hq
  | true => exact hp

theorem quiet_allOk (cs : List Call) : Quiet (allOk a cs) := by
  induction cs with
  | nil => exact quiet_pure true
  | cons c cs ih =>
    refine (quiet_call c).bind fun ok => ?_
    cases ok with
    | false => exact quiet_pure false
    | true => exact ih

theorem once_refuse : Once (refuse a) := (quiet_call _).once_bind fun _ => once_settle _

theorem once_activate : Once (activate a) := by
  refine (quiet_allOk _).once_bind fun ok => once_ite ?_ once_refuse
  refine (quiet_call _).once_bind fun serving => (quiet_call _).once_bind fun _ => ?_
  exact once_ite (once_settle _) once_refuse

theorem once_deactivate (served : Call) : Once (deactivate a served) := by
  refine (quiet_call _).once_bind fun ok => once_ite ?_ (once_settle _)
  exact (quiet_call _).once_bind fun _ => once_settle _

theorem once_readmission : Once (readmission a) := by
  refine (quiet_call _).once_bind fun ok => once_ite ?_ (once_settle _)
  refine (quiet_call _).once_bind fun verified => (quiet_call _).once_bind fun going =>
    once_ite ?_ (once_settle _)
  have hquiet : Quiet (if verified then call a .stillAllows else pure false) := by
    cases verified with
    | false => exact quiet_pure false
    | true => exact quiet_call _
  exact hquiet.once_bind fun _ => once_ite (once_settle _) (once_deactivate _)

theorem once_perform (k : CommandKind) : Once (perform a k) := by
  cases k with
  | activate => exact once_activate
  | update => exact once_activate
  | deactivate => exact once_deactivate _
  | readmission => exact once_readmission

/-- A run settles its command once, whatever it is answered. -/
theorem outcomes_eq_singleton (a : Answers) (k : CommandKind) : ∃ o, outcomes a k = [o] := by
  rcases once_perform (a := a) k [] with ⟨o, ho⟩ | hpanic
  · refine ⟨o, ?_⟩
    rw [outcomes, run, ho]
    rfl
  · refine ⟨.panicked, ?_⟩
    rw [outcomes, run, hpanic]
    rfl

end

/-! ### The executor -/

structure Command where
  no : Nat
  kind : CommandKind
  deriving DecidableEq, Repr

inductive LoopAt
  | idle
  | taken (c : Command)
  | running (c : Command)
  | leaving (c : Option Command)
  | ended
  deriving DecidableEq, Repr

/-- The executor. `hands` has the commands that a caller took out under the lock and settles
behind it; `sent` counts the commands given to `Send`. -/
structure Executor where
  closed : Bool
  pending : Option Command
  hands : List (Nat × Outcome)
  loop : LoopAt
  settled : List (Nat × Outcome)
  sent : Nat
  deriving DecidableEq, Repr

namespace Executor

def new : Executor := ⟨false, none, [], .idle, [], 0⟩

def unspawned : Executor := ⟨true, none, [], .ended, [], 0⟩

def takeOut (o : Outcome) (e : Executor) : Executor :=
  { e with pending := none, hands := e.hands ++ e.pending.toList.map fun c => (c.no, o) }

def send (kind : CommandKind) (e : Executor) : Executor :=
  if e.closed then { e with hands := e.hands ++ [(e.sent, .stopping)], sent := e.sent + 1 }
  else { e.takeOut .superseded with pending := some ⟨e.sent, kind⟩, sent := e.sent + 1 }

/-- `found`: no attempt of the generation runs and the pending command has it. -/
def withdraw (found : Bool) (e : Executor) : Executor := if found then e.takeOut .withdrawn else e

/-- `Close`. -/
def close (e : Executor) : Executor := if e.closed then e else { e.takeOut .stopping with closed := true }

def settleAll (os : List (Nat × Outcome)) (e : Executor) : Executor := { e with settled := e.settled ++ os }

/-- A turn of the loop up to `run`. -/
def look (e : Executor) : Executor := match e.pending with
  | none => if e.closed then { e with loop := .ended } else e
  | some c =>
    if e.closed then { e.settleAll [(c.no, .stopping)] with pending := none, loop := .ended }
    else { e with pending := none, loop := .taken c }

/-- The loop closes the executor itself when its context ends. -/
def contextEnds (e : Executor) : Executor := if e.closed then { e with loop := .leaving none }
  else { e with closed := true, pending := none, loop := .leaving e.pending }

/-- The first region of `run`. -/
def begin (c : Command) (e : Executor) : Executor :=
  if e.closed then { e.settleAll [(c.no, .stopping)] with loop := .idle } else { e with loop := .running c }

end Executor

inductive Step : Executor → Executor → Prop
  | send {e} (kind : CommandKind) : Step e (e.send kind)
  | withdraw {e} (found : Bool) : Step e (e.withdraw found)
  | close {e} : Step e e.close
  | drop {e} (before after : List (Nat × Outcome)) (x : Nat × Outcome) : e.hands = before ++ x :: after →
    Step e { e.settleAll [x] with hands := before ++ after }
  | look {e} : e.loop = .idle → Step e e.look
  | contextEnds {e} : e.loop = .idle → Step e e.contextEnds
  | leave {e} (c : Option Command) : e.loop = .leaving c →
    Step e { e.settleAll (c.toList.map fun c => (c.no, .stopping)) with loop := .ended }
  | begin {e} (c : Command) : e.loop = .taken c → Step e (e.begin c)
  | finish {e} (c : Command) (a : Answers) : e.loop = .running c →
    Step e { e.settleAll ((outcomes a c.kind).map fun o => (c.no, o)) with loop := .idle }

abbrev Steps := Relation.ReflTransGen Step

/-! ### What is kept -/

def LoopAt.commands : LoopAt → List Command
  | .idle => []
  | .taken c => [c]
  | .running c => [c]
  | .leaving c => c.toList
  | .ended => []

def Executor.places (e : Executor) : List Nat :=
  e.settled.map Prod.fst ++ e.hands.map Prod.fst ++ e.pending.toList.map Command.no ++
    e.loop.commands.map Command.no

structure Kept (e : Executor) : Prop where
  places : e.places.Perm (List.range e.sent)
  pending : e.closed → e.pending = none
  closed : e.loop = .ended → e.closed
  leaving : ∀ c, e.loop = .leaving c → e.closed

section
variable {e e' : Executor}

theorem Kept.of_perm (h : Kept e) (hplaces : e'.places.Perm e.places) (hsent : e'.sent = e.sent)
    (hpending : e'.closed → e'.pending = none) (hclosed : e'.loop = .ended → e'.closed)
    (hleaving : ∀ c, e'.loop = .leaving c → e'.closed) : Kept e' :=
  ⟨hsent ▸ hplaces.trans h.places, hpending, hclosed, hleaving⟩

section
variable (h : Kept e)
include h

theorem Kept.takeOut (o : Outcome) : Kept (e.takeOut o) :=
  h.of_perm (by simp [Executor.places, Executor.takeOut, Function.comp_def]) rfl
    (fun _ => rfl) h.closed h.leaving

theorem Kept.send (kind : CommandKind) : Kept (e.send kind) := by
  have hplaces : (e.send kind).places.Perm (e.places ++ [e.sent]) := by
    refine perm_iff_count.mpr fun n => ?_
    unfold Executor.send
    split_ifs <;> simp [Executor.places, Executor.takeOut, Function.comp_def, count_cons]
    omega
  have hsent : (e.send kind).sent = e.sent + 1 := by
    unfold Executor.send
    split_ifs <;> rfl
  have hclosed : (e.send kind).closed = e.closed := by
    unfold Executor.send
    split_ifs <;> rfl
  have hloop : (e.send kind).loop = e.loop := by
    unfold Executor.send
    split_ifs <;> rfl
  refine ⟨?_, ?_, ?_, ?_⟩
  · rw [hsent, range_succ]
    exact hplaces.trans (h.places.append_right _)
  · rw [hclosed]
    intro hc
    rw [Executor.send, if_pos hc]
    exact h.pending hc
  · rw [hclosed, hloop]
    exact h.closed
  · rw [hclosed, hloop]
    exact h.leaving

theorem Kept.close : Kept e.close := by
  unfold Executor.close
  split_ifs with hc
  · exact h
  · exact (h.takeOut .stopping).of_perm (.refl _) rfl (fun _ => rfl) (fun _ => rfl) fun _ _ => rfl

theorem Kept.look (hidle : e.loop = .idle) : Kept e.look := by
  unfold Executor.look
  cases hp : e.pending with
  | none =>
    split_ifs with hc
    · refine h.of_perm ?_ rfl (fun _ => rfl) (fun _ => hc) nofun
      simp [Executor.places, LoopAt.commands, hidle, hp]
    · exact h
  | some c =>
    have hopen : ¬e.closed := fun hc => by
      rw [h.pending hc] at hp
      cases hp
    dsimp only
    rw [if_neg hopen]
    refine h.of_perm ?_ rfl (fun _ => rfl) nofun nofun
    simp [Executor.places, LoopAt.commands, hidle, hp]

theorem Kept.contextEnds (hidle : e.loop = .idle) : Kept e.contextEnds := by
  unfold Executor.contextEnds
  split_ifs with hc
  · refine h.of_perm ?_ rfl h.pending nofun fun _ _ => hc
    simp [Executor.places, LoopAt.commands, hidle]
  · refine h.of_perm ?_ rfl (fun _ => rfl) nofun fun _ _ => rfl
    simp [Executor.places, LoopAt.commands, hidle]

theorem Kept.settling {os : List (Nat × Outcome)} (hos : os.map Prod.fst = e.loop.commands.map Command.no)
    {next : LoopAt} (hnext : next.commands = []) (hclosed : next = .ended → e.closed)
    (hleaving : ∀ c, next ≠ .leaving c) : Kept { e.settleAll os with loop := next } := by
  refine h.of_perm ?_ rfl h.pending hclosed fun c hc => absurd hc (hleaving c)
  refine perm_iff_count.mpr fun n => ?_
  simp [Executor.places, Executor.settleAll, hnext, hos]
  omega

theorem Kept.begin {c : Command} (htaken : e.loop = .taken c) : Kept (e.begin c) := by
  unfold Executor.begin
  split_ifs with hc
  · exact h.settling (by rw [htaken]; rfl) rfl nofun nofun
  · refine h.of_perm ?_ rfl h.pending nofun nofun
    simp [Executor.places, LoopAt.commands, htaken]

theorem Kept.step (hstep : Step e e') : Kept e' := by
  cases hstep with
  | send kind => exact h.send kind
  | withdraw found =>
    unfold Executor.withdraw
    split_ifs
    · exact h.takeOut _
    · exact h
  | close => exact h.close
  | drop before after x hx =>
    refine h.of_perm ?_ rfl h.pending h.closed h.leaving
    refine perm_iff_count.mpr fun n => ?_
    simp [Executor.places, Executor.settleAll, hx, count_cons]
    omega
  | look hidle => exact h.look hidle
  | contextEnds hidle => exact h.contextEnds hidle
  | leave c hc =>
    refine h.settling ?_ rfl (fun _ => h.leaving c hc) nofun
    rw [hc, List.map_map]
    rfl
  | begin c hc => exact h.begin hc
  | finish c a hc =>
    obtain ⟨o, ho⟩ := outcomes_eq_singleton a c.kind
    refine h.settling ?_ rfl nofun nofun
    rw [hc, ho]
    rfl

end

theorem kept_steps {start : Executor} (hstart : start = .new ∨ start = .unspawned)
    (h : Steps start e) : Kept e := by
  induction h with
  | refl =>
    rcases hstart with rfl | rfl
    · exact ⟨.refl _, nofun, nofun, nofun⟩
    · exact ⟨.refl _, fun _ => rfl, fun _ => rfl, nofun⟩
  | tail _ hstep ih => exact ih.step hstep

/-- No command is settled twice and none is pending in a closed executor; and when the loop has
ended and nobody has a command in hand, all that were sent are settled. -/
theorem settled_once {start e : Executor} (hstart : start = .new ∨ start = .unspawned) (h : Steps start e) :
    (e.settled.map Prod.fst).Nodup ∧ (e.closed → e.pending = none) ∧
      (e.loop = .ended → e.hands = [] → ∀ n, n ∈ e.settled.map Prod.fst ↔ n < e.sent) := by
  have hk : Kept e := kept_steps hstart h
  refine ⟨?_, hk.pending, fun hended hhands n => ?_⟩
  · have hnodup : e.places.Nodup := hk.places.nodup_iff.mpr nodup_range
    unfold Executor.places at hnodup
    rw [append_assoc, append_assoc] at hnodup
    exact hnodup.of_append_left
  · have hmem := hk.places.mem_iff (a := n)
    unfold Executor.places at hmem
    rw [hk.pending (hk.closed hended), hended, hhands] at hmem
    simpa [LoopAt.commands] using hmem

/-- At every moment each command that was sent is in exactly one place: with nobody a second
time, and never with none. -/
theorem sent_in_one_place {start : Executor} (hstart : start = .new ∨ start = .unspawned)
    (h : Steps start e) (n : Nat) : e.places.count n = if n < e.sent then 1 else 0 := by
  rw [(kept_steps hstart h).places.count_eq, nodup_range.count]
  simp only [mem_range]

end

/-! ### The executor with its leases -/

/-- Both models of the executor have the same under its lock. -/
structure Matches (e : PluginFacility.Executor) (s : Executor) : Prop where
  closed : s.closed = e.closed
  pending : s.pending.map Command.kind = e.pending.map PluginFacility.Command.kind

section
variable {e : PluginFacility.Executor} {s : Executor} (h : Matches e s)
include h

theorem Matches.same {e' : PluginFacility.Executor} (hclosed : e'.closed = e.closed)
    (hpending : e'.pending = e.pending) : Matches e' s :=
  ⟨h.closed.trans hclosed.symm, hpending ▸ h.pending⟩

theorem Matches.drop (o : Outcome) : Matches e.drop (s.takeOut o) := by
  unfold PluginFacility.Executor.drop
  split
  · rename_i hnone
    exact ⟨h.closed, by rw [hnone]; rfl⟩
  · exact ⟨h.closed, rfl⟩

theorem Matches.look : Matches (e.setPending none) s.look := by
  unfold Executor.look
  split
  · rename_i hnone
    split_ifs <;> exact ⟨h.closed, congrArg _ hnone⟩
  · split_ifs <;> exact ⟨h.closed, rfl⟩

/-- What another goroutine does to the executor with its leases is a step here, or none. -/
theorem Matches.other (o : Other) : ∃ s', Steps s s' ∧ Matches (e.other o) s' := by
  cases o with
  | send kind =>
    refine ⟨s.send kind, .single (.send kind), ?_⟩
    have hdrop := h.drop .superseded
    change Matches (e.send kind) (s.send kind)
    unfold PluginFacility.Executor.send Executor.send
    rw [← h.closed]
    split_ifs
    · exact ⟨h.closed, h.pending⟩
    · dsimp only
      split
      · split_ifs <;> exact ⟨hdrop.closed, rfl⟩
      · exact ⟨hdrop.closed, rfl⟩
  | withdraw g =>
    have hdrop : ∃ s', Steps s s' ∧ Matches (if e.pending.any (·.gen = g) then e.drop else e) s' := by
      split_ifs
      · exact ⟨_, .single (.withdraw true), h.drop .withdrawn⟩
      · exact ⟨s, .refl, h⟩
    change ∃ s', Steps s s' ∧ Matches (e.withdrawGen g) s'
    unfold PluginFacility.Executor.withdrawGen
    split
    · split_ifs at hdrop ⊢
      · exact ⟨s, .refl, h.same rfl rfl⟩
      · exact ⟨s, .refl, h.same rfl rfl⟩
      · exact hdrop
      · exact hdrop
    · exact hdrop
  | close =>
    refine ⟨s.close, .single .close, ?_⟩
    have hdrop := h.drop .stopping
    change Matches e.close s.close
    unfold PluginFacility.Executor.close Executor.close
    rw [← h.closed]
    split_ifs
    · exact h
    · dsimp only
      split <;> exact ⟨rfl, hdrop.pending⟩
  | takeBack i | cancel i | parentDone | release g keep =>
    -- nothing of this touches what both have
    refine ⟨s, .refl, h.same ?_ ?_⟩ <;>
      simp only [PluginFacility.Executor.other, Executor.takeBack, Executor.cancelTakenBack] <;>
      (repeat' split) <;> rfl

end

/-- The loop can end while a caller of `Close` has still to settle what it took out. -/
theorem unsettled_when_ended : ∃ e, Steps .new e ∧ e.loop = .ended ∧ e.sent = 1 ∧ e.settled = [] := by
  have h1 : Steps .new (Executor.new.send .activate) := .single (.send .activate)
  have h2 := (h1.tail .close).tail (.look rfl)
  exact ⟨_, h2, by decide, by decide, by decide⟩

/-- The first command is superseded and settled by its sender, the second runs to its end, and the
loop ends behind a `Close`. -/
theorem settled_once_superseded : ∃ e, Steps .new e ∧
    e.settled = [(0, .superseded), (1, .stopped)] ∧ ∀ n, n ∈ e.settled.map Prod.fst ↔ n < 2 := by
  have h1 : Steps .new (Executor.new.send .activate) := .single (.send .activate)
  have h2 := (h1.tail (.send .deactivate)).tail (.drop [] [] (0, .superseded) (by decide))
  have h3 := ((h2.tail (.look rfl)).tail (.begin ⟨1, .deactivate⟩ rfl)).tail (.finish _ (fun _ => .ok) rfl)
  have h4 := (h3.tail .close).tail (.look rfl)
  exact ⟨_, h4, by decide, (settled_once (.inl rfl) h4).2.2 (by decide) (by decide)⟩

theorem sent_in_one_place_twice : ((Executor.new.send .activate).send .deactivate).places.count 0 = 1 :=
  sent_in_one_place (.inl rfl) (.tail (.single (.send .activate)) (.send .deactivate)) 0

end AiiOs.PluginFacility.Settlement
