import AiiOs.Lib.Table

/-! internal/broker, files.go and broker.go: one file of a root, which `fs.publish` replaces
when it is what the caller expects, and which `fs.write` writes in place. An event is a step of
one of the calls. -/

namespace AiiOs.Broker.Publish
open Lib Table

/-- `publishLock`'s key. -/
structure LockKey where
  pluginID : List Char
  root : List Char
  rel : List Char
  deriving DecidableEq, Repr

/-- What a caller says of the file that is there: nothing, `expected_sha256`, `expected_absent`. -/
inductive Expected
  | anything
  | sha256 (digest : List Char)
  | absent
  deriving DecidableEq, Repr

section
variable {Content : Type}

inductive Phase (Content : Type)
  | locked
  | looked
  | renamed (replaced : Option Content)

/-- A call of `fs.publish` that has the lock of its key. -/
structure Publishing (Content : Type) where
  key : LockKey
  expected : Expected
  content : Content
  phase : Phase Content

structure Success (Content : Type) where
  expected : Expected
  replaced : Option Content

structure State (Content : Type) where
  file : Option Content
  calls : Table (@Publishing.key Content)
  succeeded : List (Success Content)

/-- How a call ends that has renamed: the file is kept, or it is not and is taken back, where
it is still the one that was put there. -/
inductive Ending
  | kept
  | takenBack
  | notThere
  deriving DecidableEq, Repr

inductive Event (Content : Type)
  | lock (key : LockKey) (expected : Expected) (content : Content)
  | look (key : LockKey)
  | rename (key : LockKey)
  | finish (key : LockKey) (ending : Ending)
  | fail (key : LockKey)
  | write (content : Content)
  | delete

variable (digest : Content → List Char)

/-- The comparison of `fsPublish`. -/
def Expected.met (file : Option Content) : Expected → Bool
  | .anything => true
  | .sha256 d => file.any fun c => digest c = d
  | .absent => file.isNone

def Publishing.become (phase : Phase Content) (p : Publishing Content) :
    Publishing Content := { p with phase := phase }

theorem Publishing.key_become (phase : Phase Content) (p : Publishing Content) :
    (p.become phase).key = p.key := rfl

def State.become (key : LockKey) (phase : Phase Content) (s : State Content) : State Content :=
  { s with calls := s.calls.update (fun p =>
    p.key = key) (Publishing.become phase) (Publishing.key_become phase) }

def State.unlock (key : LockKey) (s : State Content) : State Content := { s with calls := s.calls.delete key }

/-- One step. A call waits for its lock, and does its own steps in their order; what fails
before the rename replaces nothing. -/
def State.exec (s : State Content) : Event Content → State Content
  | .lock key expected content =>
    if h : s.calls.Holds key then s else { s with calls := s.calls.push ⟨key, expected, content, .locked⟩ h }
  | .look key =>
    match s.calls.find? key with
    | some ⟨_, expected, _, .locked⟩ => if expected.met digest s.file then s.become key .looked
        else s.unlock key
    | _ => s
  | .rename key =>
    match s.calls.find? key with
    | some ⟨_, _, content, .looked⟩ => { s.become key (.renamed s.file) with file := some content }
    | _ => s
  | .finish key ending =>
    match s.calls.find? key with
    | some ⟨_, expected, _, .renamed replaced⟩ =>
      match ending with
      | .kept => { s.unlock key with succeeded := s.succeeded ++ [⟨expected, replaced⟩] }
      | .takenBack => { s.unlock key with file := none }
      | .notThere => s.unlock key
    | _ => s
  | .fail key =>
    match s.calls.find? key with
    | some ⟨_, _, _, .renamed _⟩ => s
    | some _ => s.unlock key
    | none => s
  | .write content => { s with file := some content }
  | .delete => { s with file := none }

def run (file : Option Content) (events : List (Event Content)) : State Content :=
  events.foldl (State.exec digest) ⟨file, .empty, []⟩

def Event.under (key : LockKey) : Event Content → Bool
  | .lock key' _ _ => key' = key
  | .write _ => false
  | .delete => false
  | _ => true

/-! ### Under one key -/

/-- What a call has found holds until it renames, and then of what it replaced. -/
def Publishing.Right (file : Option Content) (p : Publishing Content) : Prop := match p.phase with
  | .locked => True
  | .looked => p.expected.met digest file
  | .renamed replaced => p.expected.met digest replaced

structure Kept (key : LockKey) (s : State Content) : Prop where
  keys : ∀ p ∈ s.calls.rows, p.key = key
  right : ∀ p ∈ s.calls.rows, p.Right digest s.file
  succeeded : ∀ r ∈ s.succeeded, r.expected.met digest r.replaced

variable {digest} {key : LockKey} {s : State Content}

section
variable (h : Kept digest key s)
include h

theorem Kept.only {k : LockKey} {p q : Publishing Content} (hp : s.calls.find? k = some p)
    (hq : q ∈ s.calls.rows) : q = p := by
  obtain ⟨hmem, -⟩ := find?_eq_some.mp hp
  exact eq_of_key_eq hq hmem ((h.keys q hq).trans (h.keys p hmem).symm)

section
variable {k : LockKey} {p : Publishing Content} (hp : s.calls.find? k = some p) {file : Option Content}
include hp

theorem Kept.unlock {succeeded : List (Success Content)}
    (hs : ∀ r ∈ succeeded, r.expected.met digest r.replaced) :
    Kept digest key { s.unlock k with file := file, succeeded := succeeded } := by
  have hnone : ∀ q ∈ (s.calls.delete k).rows, False := by
    intro q hq
    obtain ⟨hmem, hne⟩ := mem_delete.mp hq
    exact hne (h.only hp hmem ▸ (find?_eq_some.mp hp).2)
  exact ⟨fun q hq => (hnone q hq).elim, fun q hq => (hnone q hq).elim, hs⟩

theorem Kept.become {phase : Phase Content} (hright : (p.become phase).Right digest file) :
    Kept digest key { s.become k phase with file := file } := by
  have hrow : ∀ q ∈ (s.become k phase).calls.rows, q = p.become phase := by
    intro q hq
    obtain ⟨q', hq', rfl⟩ := (mem_update (Publishing.key_become phase)).mp hq
    rw [h.only hp hq', if_pos (decide_eq_true (find?_eq_some.mp hp).2)]
  refine ⟨fun q hq => ?_, fun q hq => ?_, h.succeeded⟩
  · rw [hrow q hq]
    exact h.keys p (find?_eq_some.mp hp).1
  · rw [hrow q hq]
    exact hright

end

theorem Kept.exec {e : Event Content} (he : e.under key) : Kept digest key (s.exec digest e) := by
  cases e with
  | lock k expected content =>
    unfold State.exec
    dsimp only
    split_ifs with hheld
    · exact h
    · refine ⟨fun p hp => ?_, fun p hp => ?_, h.succeeded⟩
      · rcases (mem_push (r := (⟨k, expected, content, .locked⟩ : Publishing Content)) hheld).mp hp
          with hp | rfl
        · exact h.keys p hp
        · exact of_decide_eq_true he
      · rcases (mem_push (r := (⟨k, expected, content, .locked⟩ : Publishing Content)) hheld).mp hp
          with hp | rfl
        · exact h.right p hp
        · trivial
  | look k =>
    unfold State.exec
    dsimp only
    split
    · rename_i hp
      split_ifs with hmet
      · exact h.become hp hmet
      · exact h.unlock hp h.succeeded
    · exact h
  | rename k =>
    unfold State.exec
    dsimp only
    split
    · rename_i hp
      exact h.become hp (h.right _ (find?_eq_some.mp hp).1)
    · exact h
  | finish k ending =>
    unfold State.exec
    dsimp only
    split
    · rename_i expected _ replaced hp
      have hright : expected.met digest replaced := h.right _ (find?_eq_some.mp hp).1
      cases ending with
      | kept =>
        refine h.unlock hp fun r hr => ?_
        rcases List.mem_append.mp hr with hr | hr
        · exact h.succeeded r hr
        · rw [List.mem_singleton.mp hr]
          exact hright
      | takenBack => exact h.unlock hp h.succeeded
      | notThere => exact h.unlock hp h.succeeded
    · exact h
  | fail k =>
    unfold State.exec
    dsimp only
    split
    · exact h
    · rename_i hp
      exact h.unlock hp h.succeeded
    · exact h
  | write content => cases he
  | delete => cases he

end

/-- While all that touch the file publish under one key, each that succeeds has replaced what
it expected. -/
theorem replaced_as_expected (digest : Content → List Char) (key : LockKey) (file : Option Content)
    (events : List (Event Content)) (hevents : ∀ e ∈ events, e.under key) :
    ∀ r ∈ (run digest file events).succeeded, r.expected.met digest r.replaced := by
  have hk : Kept digest key (run digest file events) :=
    List.foldlRecOn (motive := Kept digest key) events _ ⟨nofun, nofun, nofun⟩ fun _ hs e he =>
      hs.exec (hevents e he)
  exact hk.succeeded

end

/-! ### Two plugins, one file -/

def keyOf (plugin : List Char) : LockKey := ⟨plugin, ['s'], ['f']⟩

def twoPlugins : List (Event (List Char)) :=
  [.lock (keyOf ['p']) (.sha256 ['0']) ['1'], .lock (keyOf ['q']) (.sha256 ['0']) ['2'], .look (keyOf ['p']),
    .look (keyOf ['q']), .rename (keyOf ['p']), .finish (keyOf ['p']) .kept, .rename (keyOf ['q']),
    .finish (keyOf ['q']) .kept]

/-- The content is its own digest here; the second plugin replaces what the first one put. -/
theorem update_overwritten :
    ((run id (some ['0']) twoPlugins).succeeded.map fun r => r.expected.met id r.replaced) =
      [true, false] := by
  decide

/-- The second call waits for the lock of the first and expects what that one puts there. -/
def inTurn : List (Event (List Char)) :=
  let second : Event (List Char) := .lock (keyOf ['p']) (.sha256 ['1']) ['2']
  [.lock (keyOf ['p']) (.sha256 ['0']) ['1'], .look (keyOf ['p']), second, .rename (keyOf ['p']),
    .finish (keyOf ['p']) .kept, second, .look (keyOf ['p']), .rename (keyOf ['p']),
    .finish (keyOf ['p']) .kept]

theorem replaced_as_expected_in_turn :
    (run id (some ['0']) inTurn).succeeded.map Success.replaced = [some ['0'], some ['1']] ∧
      ∀ r ∈ (run id (some ['0']) inTurn).succeeded, r.expected.met id r.replaced :=
  ⟨by decide, replaced_as_expected id (keyOf ['p']) _ _ (by decide)⟩

end AiiOs.Broker.Publish
