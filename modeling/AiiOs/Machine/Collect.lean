import AiiOs.Lib.Guarded

/-! The plugin store's collector and the references it goes by: requests and passes in any
order, as one entry sees them. A pass takes the time, reads the marks, looks at each entry
under the lock, and at its end writes the marks it found. -/

namespace AiiOs.Machine

-- times are nanoseconds
def second : Nat := 1000000000

def storeGrace : Nat := 3600 * second

/-- A time as the state file keeps it, in whole seconds. -/
def stamp (now : Nat) : Nat := now / second * second

structure Ref where
  slot : String
  plugin : String
  entry : String
  deriving DecidableEq

/-- Pending work: its entry, and the entries its `pendingDigests` name. -/
structure Pending where
  entry : String
  digests : List String

structure Pass where
  now : Nat
  before : Option (Option Nat) -- nothing until the marks are read
  found : Option Nat

structure Collector where
  clock : Nat
  refs : List Ref
  pending : List Pending
  mark : Option Nat -- of the entry, in `Unreferenced`
  pass : Option Pass
  lastNamed : Option Nat -- the latest moment at which something named the entry

def Collector.new : Collector := ⟨0, [], [], none, none, none⟩

/-- A reference to the entry stands, or pending work names it. -/
def Collector.Named (entry : String) (c : Collector) : Prop :=
  (∃ r ∈ c.refs, r.entry = entry) ∨ ∃ p ∈ c.pending, p.entry = entry ∨ entry ∈ p.digests

instance (entry : String) (c : Collector) : Decidable (c.Named entry) :=
  inferInstanceAs (Decidable (_ ∨ _))

inductive Event
  | need (refs : List Ref) (pending : List Pending)
  | letGo (gone : Ref → Bool)
  | clearPending (entry : String)
  | start
  | read
  | look (drained linked retired : Bool)
  | finish
  | abandon

def release (slot : String) (refs : List (String × String)) : Event :=
  .letGo fun r => r.slot = slot ∧ (r.plugin, r.entry) ∈ refs

namespace Collector
variable (entry : String) (c : Collector)

/-- `liveLocked`; of a drained store, what the current one holds too is not live. -/
def live (drained linked : Bool) : Bool := !drained && (linked || c.Named entry)

/-- What a look at the entry puts among the marks found. -/
def look (now : Nat) (before : Option Nat) (drained linked retired : Bool) : Option Nat :=
  if c.live entry drained linked then none
  else
    match before with
    | none => some (stamp now)
    | some since => if now < since + storeGrace ∨ !retired then some since else none

def change (t : Nat) : Event → Option Collector
  | .need refs pending => some { c with
      refs := refs.foldl (fun l r => if r ∈ l then l else l ++ [r]) c.refs
      pending := pending.foldl (fun l p => l.filter (·.entry ≠ p.entry) ++ [p]) c.pending }
  | .letGo gone =>
    let refs := c.refs.filter fun r => !gone r
    some { c with refs, pending := c.pending.filter fun p => refs.any (·.entry = p.entry) }
  | .clearPending entry => some { c with pending := c.pending.filter (·.entry ≠ entry) }
  | .start => if c.pass.isSome then none else some { c with pass := some ⟨t, none, none⟩ }
  | .read =>
    match c.pass with
    | some ⟨now, none, found⟩ => some { c with pass := some ⟨now, some c.mark, found⟩ }
    | _ => none
  | .look drained linked retired =>
    match c.pass with
    | some ⟨now, some before, _⟩ =>
      some { c with pass := some ⟨now, some before, c.look entry now before drained linked retired⟩ }
    | _ => none
  | .finish =>
    match c.pass with
    | some ⟨_, some _, found⟩ => some { c with mark := found, pass := none }
    | _ => none
  | .abandon => some { c with pass := none }

def lastAt (t : Nat) (c' : Collector) : Option Nat :=
  if c.Named entry ∨ c'.Named entry then some t else c.lastNamed

/-- An event at its time, under a clock that never goes back. -/
def step (e : Nat × Event) : Option Collector := if e.1 < c.clock then none
  else (c.change entry e.1 e.2).map fun c' =>
    { c' with clock := e.1, lastNamed := c.lastAt entry e.1 c' }

def after (events : List (Nat × Event)) : Option Collector := events.foldlM (step entry) c

/-- A look now would take the entry. -/
def Takes (drained linked : Bool) : Prop := c.live entry drained linked = false ∧
    ∃ p since, c.pass = some p ∧ p.before = some (some since) ∧ since + storeGrace ≤ p.now

/-- The times the entry's marks have or could be given by the pass under way. -/
def times : List Nat :=
  c.mark.toList ++ c.pass.elim [] fun p => stamp p.now :: (p.found.toList ++ p.before.join.toList)

/-- What a step must respect: when the last name of the entry goes, no mark of it and no pass has
an earlier time; and no pass starts later within the same second. -/
def Respects (c' : Collector) (t : Nat) : Prop :=
  (c.Named entry → ¬c'.Named entry → ∀ m ∈ c.times, t ≤ m) ∧
    (¬c'.Named entry → ∀ p ∈ c'.pass, ∀ l ∈ c'.lastNamed, l ≤ stamp p.now)

instance (c' : Collector) (t : Nat) : Decidable (c.Respects entry c' t) :=
  inferInstanceAs (Decidable (_ ∧ _))

def respected : List (Nat × Event) → Bool :=
  Lib.guarded (step entry) (fun c e c' => c.Respects entry c' e.1) c

end Collector

structure Fresh (entry : String) (c : Collector) : Prop where
  now : ∀ p, c.pass = some p → p.now ≤ c.clock
  past : ∀ l, c.lastNamed = some l → l ≤ c.clock
  times : ¬c.Named entry → ∀ l, c.lastNamed = some l → ∀ m ∈ c.times, l ≤ m

variable {entry : String} {c c' : Collector} {t : Nat} {ev : Event}

theorem look_cases {now m : Nat} {before : Option Nat} {drained linked retired : Bool}
    (h : c.look entry now before drained linked retired = some m) : m = stamp now ∨ before = some m := by
  unfold Collector.look at h
  split at h
  · cases h
  split at h
  · cases h
    exact .inl rfl
  · split at h <;> cases h
    exact .inr rfl

theorem mem_times {m : Nat} : m ∈ c.times ↔ c.mark = some m ∨
    ∃ p, c.pass = some p ∧ (m = stamp p.now ∨ p.found = some m ∨ p.before = some (some m)) := by
  cases hp : c.pass <;> simp [Collector.times, hp, Option.join_eq_some_iff]

/-- A change brings no time but that of a pass it starts. -/
theorem change_times (h : c.change entry t ev = some c') :
    (∀ p, c'.pass = some p → p.now = t ∨ ∃ q, c.pass = some q ∧ p.now = q.now) ∧
      ∀ m ∈ c'.times, m ∈ c.times ∨ ∃ p, c'.pass = some p ∧ p.now = t ∧ m = stamp t := by
  cases ev with
  | need | letGo | clearPending =>
    cases h
    exact ⟨fun p hp => .inr ⟨p, hp, rfl⟩, fun m hm => .inl hm⟩
  | start | read | finish =>
    simp only [Collector.change] at h
    all_goals grind [mem_times]
  | look drained linked retired =>
    simp only [Collector.change] at h
    grind [mem_times, look_cases]
  | abandon =>
    cases h
    grind [mem_times]

theorem Fresh.step {e : Nat × Event} (h : Fresh entry c) (hstep : c.step entry e = some c')
    (hrespects : c.Respects entry c' e.1) : Fresh entry c' := by
  unfold Collector.step at hstep
  split at hstep
  · cases hstep
  rename_i hclock
  obtain ⟨c₁, hc₁, rfl⟩ := Option.map_eq_some_iff.mp hstep
  obtain ⟨hnow, htimes⟩ := change_times hc₁
  have hlast : ∀ l, c.lastAt entry e.1 c₁ = some l → l ≤ e.1 := by
    intro l hl
    unfold Collector.lastAt at hl
    split at hl
    · cases hl
      exact Nat.le_refl _
    · exact Nat.le_trans (h.past l hl) (Nat.le_of_not_lt hclock)
  refine ⟨fun p hp => ?_, hlast, fun hnot l hl m hm => ?_⟩
  · rcases hnow p hp with hnow | ⟨q, hq, hnow⟩
    · exact Nat.le_of_eq hnow
    · exact hnow ▸ Nat.le_trans (h.now q hq) (Nat.le_of_not_lt hclock)
  rcases htimes m hm with hm | ⟨p, hp, hnow, rfl⟩
  · by_cases hnamed : c.Named entry
    · -- the last name goes with this step
      exact Nat.le_trans (hlast l hl) (hrespects.1 hnamed hnot m hm)
    · have hsame : c.lastAt entry e.1 c₁ = c.lastNamed := if_neg (not_or.mpr ⟨hnamed, hnot⟩)
      exact h.times hnamed l (hsame ▸ hl) m hm
  · exact hnow ▸ hrespects.2 hnot p hp l hl

/-- Where every end of the entry's names finds no mark of it and no earlier pass, and no pass starts
within its second, the collector takes it from the current store only when nothing named it for the
whole grace before. -/
theorem taken_after_whole_grace (entry : String) (events : List (Nat × Event)) (c : Collector)
    (hrespected : Collector.new.respected entry events)
    (hafter : Collector.new.after entry events = some c) (linked : Bool) (t : Nat)
    (ht : c.clock ≤ t) (htakes : c.Takes entry false linked) :
    ¬c.Named entry ∧ ∀ l, c.lastNamed = some l → l + storeGrace ≤ t := by
  have hnew : Fresh entry .new := by constructor <;> simp [Collector.new]
  have h := Lib.guarded_invariant (fun _ _ _ h hstep hguard => .step h hstep (of_decide_eq_true hguard))
    hnew hrespected hafter
  obtain ⟨hlive, p, since, hp, hbefore, hgrace⟩ := htakes
  have hnot : ¬c.Named entry := by
    simp only [Collector.live, Bool.not_false, Bool.true_and, Bool.or_eq_false_iff] at hlive
    exact of_decide_eq_false hlive.2
  refine ⟨hnot, fun l hl => ?_⟩
  have hsince := h.times hnot l hl since (mem_times.mpr (.inr ⟨p, hp, .inr (.inr hbefore)⟩))
  have hnow := h.now p hp
  omega

def minute : Nat := 60 * second

def aNeed : Event := .need [⟨"slot", "plugin", "roots/a"⟩] []

def aRelease : Event := release "slot" [("plugin", "roots/a")]

def passAt (t : Nat) :
    List (Nat × Event) := [(t, .start), (t, .read), (t, .look false false true), (t, .finish)]

def releasedFirst : List (Nat × Event) :=
  (0, aNeed) :: (minute, aRelease) :: passAt minute ++ [(61 * minute, .start), (61 * minute, .read)]

def hourLater : Collector := (Collector.new.after "roots/a" releasedFirst).getD .new

theorem hourLater_taken : hourLater.Takes "roots/a" false false ∧
    ∀ l, hourLater.lastNamed = some l → l + storeGrace ≤ 61 * minute :=
  have htakes : hourLater.Takes "roots/a" false false := ⟨rfl, _, minute, rfl, rfl, by decide⟩
  ⟨htakes, (taken_after_whole_grace "roots/a" releasedFirst hourLater (by decide) rfl false _
    (by decide) htakes).2⟩

/-- Marked, needed half an hour later, released after fifty minutes, and taken at the hour. -/
theorem taken_ten_minutes_after_release : ∃ c,
    Collector.new.after "roots/a" (passAt 0 ++ [(30 * minute, aNeed), (50 * minute, aRelease),
      (60 * minute, .start), (60 * minute, .read)]) = some c ∧ c.Takes "roots/a" false false ∧
      c.lastNamed = some (50 * minute) ∧ c.clock = 60 * minute :=
  ⟨_, rfl, ⟨rfl, _, 0, rfl, rfl, by decide⟩, rfl, rfl⟩

end AiiOs.Machine
