import AiiOs.Store.Queue
import Mathlib.Logic.Relation

/-! internal/cognitive, workqueue.go: the workers of the executor claim items from the queue, run
them and settle them. A step is a region under a lock. -/

namespace AiiOs.Cognitive.WorkQueue
open Lib List Table Store.Queue

/-- The executor does not read a payload. -/
abbrev WorkItem := Store.Queue.WorkItem Unit

abbrev Items := Store.Queue.Items Unit

/-! ### The workers -/

def claimedOf (kind : List Char) (items : Items) : Nat :=
  items.affected fun r => r.kind = kind && r.state = .claimed

/-- `ClaimWork` may return the item: it waits, its time has come and its kind has room. -/
def claimable (limits : List Char → Option Nat) (now : Int) (items : Items) (r : WorkItem) : Bool :=
  r.state = .pending && r.scheduled ≤ now && !(limits r.kind).any fun n => n ≤ claimedOf r.kind items

/-- A worker and the item it took; `settled` once the item is completed or failed and only
the mark is left to be removed. -/
structure Job where
  worker : Nat
  item : List Char
  settled : Bool
  deriving DecidableEq, Repr

def Job.settle (j : Job) : Job := { j with settled := true }

theorem Job.worker_settle (j : Job) : j.settle.worker = j.worker := rfl

/-- The queue and the executor. `started` has every claim; `overtaken` says that an item was
claimed whose last worker had its mark still there. -/
structure State where
  limits : List Char → Option Nat
  items : Items
  running : List (List Char)
  jobs : Table Job.worker
  started : List (List Char)
  overtaken : Bool

namespace State

def start (limits : List Char → Option Nat) : State := ⟨limits, .empty, [], .empty, [], false⟩

def enqueue (it : WorkItem) (s : State) : State :=
  { s with items := (enqueueWork it s.items).getD s.items }

def sweep (now : Int) (s : State) : State := { s with items := sweepExpiredLeases now s.items s.running }

def claim (s : State) (worker : Nat) (id : List Char) (now : Int) (h : ¬s.jobs.Holds worker) : State :=
  { s with
    items := claimWork id now s.items
    running := id :: s.running
    jobs := s.jobs.push ⟨worker, id, false⟩ h
    started := id :: s.started
    overtaken := s.overtaken || id ∈ s.running }

/-- The end of `runOne`. -/
def settle (j : Job) (ok : Bool) (now : Int) (s : State) : State := { s with
    items := if ok then completeWork j.item s.items else failWork j.item now s.items
    jobs := s.jobs.update (fun k => k.worker = j.worker) Job.settle Job.worker_settle }

def forget (j : Job) (s : State) : State :=
  { s with running := s.running.filter fun id => id ≠ j.item, jobs := s.jobs.delete j.worker }

def restart (s : State) : State := { s with running := [], jobs := .empty }

end State

/-- Limits are not lowered; a kind that had none gets none. -/
inductive Step : State → State → Prop
  | enqueue {s} (id kind dedupKey : List Char) (scheduled leaseMs : Int) (maxRetries : Nat) :
    Step s (s.enqueue (newItem id kind () dedupKey scheduled leaseMs maxRetries))
  | setClaimLimit {s} (kind : List Char) (limit : Option Nat) :
    (∀ n ∈ limit, ∃ m ∈ s.limits kind, m ≤ n) →
      Step s { s with limits := Function.update s.limits kind limit }
  | sweep {s} (now : Int) : Step s (s.sweep now)
  | claim {s} (worker : Nat) (r : WorkItem) (now : Int) (h : ¬s.jobs.Holds worker) :
    s.items.find? r.id = some r → claimable s.limits now s.items r → Step s (s.claim worker r.id now h)
  | settle {s} (j : Job) (ok : Bool) (now : Int) :
    s.jobs.find? j.worker = some j → j.settled = false → Step s (s.settle j ok now)
  | forget {s} (j : Job) : s.jobs.find? j.worker = some j → j.settled → Step s (s.forget j)
  | restart {s} : Step s s.restart

abbrev Steps := Relation.ReflTransGen Step

/-! ### What is kept -/

def begun (r : WorkItem) : Nat := if r.state = .claimed ∨ r.state = .done then 1 else 0

/-- Every start of the item is counted, or is the one it is in, and there was room for it. -/
def Fair (started : List (List Char)) (r : WorkItem) : Prop :=
  started.count r.id = r.retryCount + begun r ∧
    r.retryCount + (if r.state = .failed then 0 else 1) ≤ r.maxRetries

def Apart (a b : WorkItem) : Prop :=
  a.live → b.live → a.dedupKey ≠ [] → ¬(a.kind = b.kind ∧ a.dedupKey = b.dedupKey)

/-- Who runs an item has its mark, has it claimed and has it alone. -/
structure Alone (s : State) : Prop where
  marked : ∀ j ∈ s.jobs.rows, j.item ∈ s.running
  claimed : ∀ j ∈ s.jobs.rows, j.settled = false → ∃ r ∈ s.items.rows, r.id = j.item ∧ r.state = .claimed
  alone : ∀ j ∈ s.jobs.rows, ∀ j' ∈ s.jobs.rows, j.item = j'.item → j = j'

structure Kept (s : State) : Prop where
  fair : ∀ r ∈ s.items.rows, Fair s.started r
  known : ∀ id ∈ s.started, s.items.Holds id
  apart : s.items.rows.Pairwise Apart
  limits : ∀ kind, ∀ n ∈ s.limits kind, claimedOf kind s.items ≤ n
  alone : s.overtaken = false → Alone s

section
variable {s s' : State} {items : Items} {r r' : WorkItem} {started : List (List Char)}

variable {p : WorkItem → Bool}

theorem mem_update_of_not {f : WorkItem → WorkItem} (hf : ∀ r, (f r).id = r.id)
    (hr : r ∈ items.rows) (hp : ¬p r) : r ∈ (items.update p f hf).rows :=
  (mem_update hf).mpr ⟨r, hr, if_neg hp⟩

/-- What a statement that takes an item out of the claimed ones makes of it. -/
structure Released (r r' : WorkItem) : Prop where
  id : r'.id = r.id
  kind : r'.kind = r.kind
  dedupKey : r'.dedupKey = r.dedupKey
  state : r'.state ≠ .claimed
  fair : ∀ started, Fair started r → Fair started r'

theorem released_complete (h : r.state = .claimed) : Released r r.complete := by
  refine ⟨rfl, rfl, rfl, nofun, fun started hf => ?_⟩
  simpa [Fair, begun, WorkItem.complete, h] using hf

theorem released_retried (h : r.state = .claimed) (now : Int) : Released r (r.retried now) := by
  refine ⟨rfl, rfl, rfl, ?_, fun started hf => ?_⟩
  · unfold WorkItem.retried
    split_ifs <;> nofun
  · obtain ⟨hcount, hmax⟩ := hf
    rw [begun, if_pos (.inl h)] at hcount
    rw [h] at hmax
    by_cases hlast : r.maxRetries ≤ r.retryCount + 1
    · simpa [WorkItem.retried, hlast] using ⟨hcount, hmax⟩
    · simp [Fair, begun, WorkItem.retried, hlast]
      omega

theorem apart_update (h : items.rows.Pairwise Apart) (f : WorkItem → WorkItem)
    (hid : ∀ r, (f r).id = r.id) (hkind : ∀ r, (f r).kind = r.kind) (hkey : ∀ r, (f r).dedupKey = r.dedupKey)
    (hlive : ∀ r, p r → r.live) : (items.update p f hid).rows.Pairwise Apart := by
  have hrow : ∀ r, ((if p r then f r else r).live → r.live) ∧
      (if p r then f r else r).kind = r.kind ∧ (if p r then f r else r).dedupKey = r.dedupKey := by
    intro r
    split_ifs with hp
    · exact ⟨fun _ => hlive r hp, hkind r, hkey r⟩
    · exact ⟨id, rfl, rfl⟩
  refine pairwise_map.mpr (h.imp fun {a b} hab hla hlb hne => ?_)
  rw [(hrow a).2.1, (hrow b).2.1, (hrow a).2.2, (hrow b).2.2]
  exact hab ((hrow a).1 hla) ((hrow b).1 hlb) ((hrow a).2.2 ▸ hne)

theorem countP_map_le {α : Type} {f : α → α} {p q : α → Bool} (l : List α)
    (h : ∀ a ∈ l, p (f a) → p a ∨ q a) : (l.map f).countP p ≤ l.countP p + l.countP q := by
  induction l with
  | nil => exact le_refl _
  | cons a l ih =>
    have hl := ih fun b hb => h b (mem_cons_of_mem a hb)
    have ha := h a mem_cons_self
    simp only [map_cons, countP_cons]
    by_cases hfa : p (f a)
    · rcases ha hfa with hpa | hqa
      · rw [if_pos hfa, if_pos hpa]
        omega
      · rw [if_pos hfa, if_pos hqa]
        omega
    · rw [if_neg hfa]
      omega

theorem claimedOf_claimWork_le (hr : items.find? r.id = some r) (kind : List Char) (now : Int) :
    claimedOf kind (claimWork r.id now items) ≤ claimedOf kind items + if r.kind = kind then 1 else 0 := by
  obtain ⟨hmem, -⟩ := find?_eq_some.mp hr
  have hle := countP_map_le (q := (·.id = r.id && r.kind = kind)) items.rows
    (p := fun a => a.kind = kind && a.state = .claimed)
    (f := fun a => if a.id = r.id && a.state = .pending then a.claim now else a) ?_
  · refine le_trans hle (Nat.add_le_add_left ?_ _)
    by_cases hk : r.kind = kind
    · rw [if_pos hk]
      have hone : (items.rows.map WorkItem.id).count r.id ≤ 1 := nodup_iff_count_le_one.mp items.nodup _
      rw [List.count, countP_map] at hone
      refine le_trans (countP_mono_left fun a _ ha => ?_) hone
      simpa [hk] using ha
    · simp [hk]
  · intro a ha hp
    by_cases hid : a.id = r.id
    · have har : a = r := eq_of_key_eq ha hmem hid
      subst har
      by_cases hpend : a.state = .pending
      · simp [hpend, WorkItem.claim] at hp
        simp [hp]
      · simp [hpend] at hp
        simp [hp.1]
    · simp only [hid] at hp
      exact .inl hp

theorem kept_start (limits : List Char → Option Nat) : Kept (.start limits) :=
  ⟨nofun, nofun, List.Pairwise.nil, fun _ _ _ => Nat.zero_le _, fun _ => ⟨nofun, nofun, nofun⟩⟩

section
variable (h : Kept s)
include h

theorem Kept.released (f : WorkItem → WorkItem) (hid : ∀ r, (f r).id = r.id)
    (hkind : ∀ r, (f r).kind = r.kind) (hkey : ∀ r, (f r).dedupKey = r.dedupKey)
    (hp : ∀ r, p r → r.state = .claimed) (hf : ∀ r, r.state = .claimed → Released r (f r))
    (hitems : s'.items = s.items.update p f hid) (hstarted : s'.started = s.started)
    (hlimits : s'.limits = s.limits)
    (halone : s'.overtaken = false → Alone s') : Kept s' := by
  refine ⟨?_, ?_, ?_, ?_, halone⟩
  · rw [hitems, hstarted]
    intro r' hr'
    obtain ⟨r, hr, rfl⟩ := (mem_update hid).mp hr'
    split_ifs with hpr
    · exact (hf r (hp r hpr)).fair _ (h.fair r hr)
    · exact h.fair r hr
  · rw [hitems, hstarted]
    exact fun id hin => (holds_update hid).mpr (h.known id hin)
  · rw [hitems]
    exact apart_update h.apart f hid hkind hkey fun r hpr => by simp [WorkItem.live, hp r hpr]
  · rw [hitems, hlimits]
    intro kind n hn
    refine le_trans ?_ (h.limits kind n hn)
    rw [claimedOf, Table.affected, Table.update, countP_map]
    refine countP_mono_left fun r _ hr => ?_
    rw [Function.comp_apply] at hr
    by_cases hpr : p r
    · rw [if_pos hpr] at hr
      simp [(hf r (hp r hpr)).state] at hr
    · rwa [if_neg hpr] at hr

theorem Kept.enqueue (id kind dedupKey : List Char) (scheduled leaseMs : Int)
    (maxRetries : Nat) :
    Kept (s.enqueue (newItem id kind () dedupKey scheduled leaseMs maxRetries)) := by
  generalize hnew : newItem id kind () dedupKey scheduled leaseMs maxRetries = it
  unfold State.enqueue enqueueWork
  split
  · exact h
  split_ifs with hdup
  · exact h
  cases hins : s.items.insert? it with
  | none => exact h
  | some items =>
    obtain ⟨hfree, rfl⟩ := insert?_eq_some.mp hins
    have hstate : it.state = .pending := hnew ▸ rfl
    refine ⟨?_, fun id hin => (holds_push hfree).mpr (.inl (h.known id hin)), ?_, ?_, fun ho => ?_⟩
    · intro r hr
      rcases (mem_push hfree).mp hr with hr | rfl
      · exact h.fair r hr
      · refine ⟨?_, ?_⟩
        · rw [count_eq_zero.mpr fun hin => hfree (h.known _ hin)]
          exact hnew ▸ rfl
        · rw [← hnew]
          change 0 + 1 ≤ if maxRetries = 0 then 3 else maxRetries
          split_ifs <;> omega
    · refine pairwise_append.mpr ⟨h.apart, pairwise_singleton .., fun a ha b hb => ?_⟩
      rw [mem_singleton.mp hb]
      rintro hla - hne ⟨hk, hd⟩
      refine hdup ⟨hd ▸ hne, List.any_eq_true.mpr ⟨a, ha, ?_⟩⟩
      simp [hk, hd, hla]
    · intro kind n hn
      refine le_trans (le_of_eq ?_) (h.limits kind n hn)
      simp [claimedOf, Table.affected, Table.push, hstate]
    · obtain ⟨hmarked, hclaimed, halone⟩ := h.alone ho
      refine ⟨hmarked, fun j hj hs => ?_, halone⟩
      obtain ⟨r, hr, hrj⟩ := hclaimed j hj hs
      exact ⟨r, (mem_push hfree).mpr (.inl hr), hrj⟩

theorem Kept.claim (worker : Nat) {now : Int} (hfree : ¬s.jobs.Holds worker)
    (hr : s.items.find? r.id = some r) (hclaim : claimable s.limits now s.items r) :
    Kept (s.claim worker r.id now hfree) := by
  obtain ⟨hmem, -⟩ := find?_eq_some.mp hr
  unfold claimable at hclaim
  rw [Bool.and_eq_true, Bool.and_eq_true] at hclaim
  obtain ⟨⟨hpend, -⟩, hroom⟩ := hclaim
  have hstate : r.state = .pending := of_decide_eq_true hpend
  have hrows : ∀ a ∈ (claimWork r.id now s.items).rows, a = r.claim now ∨
      (a ∈ s.items.rows ∧ a.id ≠ r.id) := by
    intro a ha
    obtain ⟨b, hb, rfl⟩ := (mem_update _).mp ha
    by_cases hid : b.id = r.id
    · rw [eq_of_key_eq hb hmem hid, hstate]
      exact .inl (if_pos (by simp))
    · rw [if_neg (by simp [hid])]
      exact .inr ⟨hb, hid⟩
  have hnew : r.claim now ∈ (claimWork r.id now s.items).rows :=
    (mem_update _).mpr ⟨r, hmem, if_pos (by simp [hstate])⟩
  have hrest : ∀ a ∈ s.items.rows, a.id ≠ r.id → a ∈ (claimWork r.id now s.items).rows := fun a ha hid =>
    mem_update_of_not (WorkItem.id_claim now) ha (by simp [hid])
  refine ⟨?_, ?_, ?_, ?_, ?_⟩
  · intro a ha
    rcases hrows a ha with rfl | ⟨ha, hid⟩
    · obtain ⟨hcount, hmax⟩ := h.fair r hmem
      simp [begun, hstate] at hcount hmax
      refine ⟨?_, ?_⟩
      · change (r.id :: s.started).count r.id = r.retryCount + 1
        rw [count_cons_self, hcount]
      · exact hmax
    · refine ⟨?_, (h.fair a ha).2⟩
      change (r.id :: s.started).count a.id = _
      rw [count_cons_of_ne (.symm hid)]
      exact (h.fair a ha).1
  · intro id hin
    change (claimWork r.id now s.items).Holds id
    rw [claimWork, holds_update]
    rcases mem_cons.mp hin with rfl | hin
    · exact holds_of_mem hmem
    · exact h.known id hin
  · refine apart_update h.apart (.claim now) (fun _ => rfl) (fun _ => rfl) (fun _ => rfl) fun a ha => ?_
    simp at ha
    simp [WorkItem.live, ha.2]
  · intro kind n hn
    have hle := claimedOf_claimWork_le hr kind now
    have hold := h.limits kind n hn
    change claimedOf kind (claimWork r.id now s.items) ≤ n
    by_cases hk : r.kind = kind
    · subst hk
      change n ∈ s.limits r.kind at hn
      rw [Option.mem_def.mp hn] at hroom
      simp at hroom
      simp at hle
      omega
    · rw [if_neg hk] at hle
      omega
  · intro ho
    change (s.overtaken || decide (r.id ∈ s.running)) = false at ho
    rw [Bool.or_eq_false_iff] at ho
    obtain ⟨hmarked, hclaimed, halone⟩ := h.alone ho.1
    -- The item has no mark, so none of the workers is at it.
    have hnone : ∀ j ∈ s.jobs.rows, j.item ≠ r.id :=
      fun j hj heq => of_decide_eq_false ho.2 (heq ▸ hmarked j hj)
    refine ⟨?_, ?_, ?_⟩
    · intro j hj
      rcases (mem_push hfree).mp hj with hj | rfl
      · exact mem_cons_of_mem _ (hmarked j hj)
      · exact mem_cons_self
    · intro j hj hs
      rcases (mem_push hfree).mp hj with hj | rfl
      · obtain ⟨a, ha, hid, hst⟩ := hclaimed j hj hs
        exact ⟨a, hrest a ha (hid ▸ hnone j hj), hid, hst⟩
      · exact ⟨_, hnew, rfl, rfl⟩
    · intro j hj j' hj' heq
      rcases (mem_push hfree).mp hj with hj | rfl <;> rcases (mem_push hfree).mp hj' with hj' | rfl
      · exact halone j hj j' hj' heq
      · exact absurd heq (hnone j hj)
      · exact absurd heq.symm (hnone j' hj')
      · rfl

theorem Kept.sweep (now : Int) : Kept (s.sweep now) := by
  refine h.released (.retried now) (fun _ => rfl) (fun _ => rfl) (fun _ => rfl) (fun r hr => ?_)
    (fun r hr => released_retried hr now)
    rfl rfl rfl fun ho => ?_
  · simp at hr
    exact hr.1.1
  · obtain ⟨hmarked, hclaimed, halone⟩ := h.alone ho
    refine ⟨hmarked, fun j hj hs => ?_, halone⟩
    obtain ⟨r, hr, hid, hst⟩ := hclaimed j hj hs
    -- The sweep passes over what is marked.
    refine ⟨r, mem_update_of_not (WorkItem.id_retried now) hr ?_, hid, hst⟩
    simp [hid, hmarked j hj]

theorem Kept.settle {j : Job} (ok : Bool) (now : Int) (hj : s.jobs.find? j.worker = some j) :
    Kept (s.settle j ok now) := by
  obtain ⟨hjmem, -⟩ := find?_eq_some.mp hj
  have halone : (s.settle j ok now).overtaken = false → Alone (s.settle j ok now) := by
    intro ho
    obtain ⟨hmarked, hclaimed, halone⟩ := h.alone ho
    have hjobs : ∀ k ∈ (s.settle j ok now).jobs.rows, k = j.settle ∨
        (k ∈ s.jobs.rows ∧ k.worker ≠ j.worker) := by
      intro k' hk'
      obtain ⟨k, hk, rfl⟩ := (mem_update Job.worker_settle).mp hk'
      by_cases hw : k.worker = j.worker
      · rw [if_pos (by simpa using hw), eq_of_key_eq hk hjmem hw]
        exact .inl rfl
      · rw [if_neg (by simpa using hw)]
        exact .inr ⟨hk, hw⟩
    refine ⟨?_, ?_, ?_⟩
    · intro k hk
      rcases hjobs k hk with rfl | ⟨hk, -⟩
      · exact hmarked j hjmem
      · exact hmarked k hk
    · intro k hk hs
      rcases hjobs k hk with rfl | ⟨hk, hw⟩
      · cases hs
      · obtain ⟨r, hr, hid, hst⟩ := hclaimed k hk hs
        have hne : r.id ≠ j.item := fun heq => hw (halone k hk j hjmem (hid.symm.trans heq) ▸ rfl)
        refine ⟨r, ?_, hid, hst⟩
        cases ok with
        | false => exact mem_update_of_not (WorkItem.id_retried now) hr (by simp [hne])
        | true => exact mem_update_of_not WorkItem.id_complete hr (by simp [hne])
    · intro k hk k' hk' heq
      rcases hjobs k hk with rfl | ⟨hk, hw⟩ <;> rcases hjobs k' hk' with rfl | ⟨hk', hw'⟩
      · rfl
      · exact absurd (halone j hjmem k' hk' heq ▸ rfl) hw'
      · exact absurd (halone k hk j hjmem heq ▸ rfl) hw
      · exact halone k hk k' hk' heq
  have hclaimed : ∀ r : WorkItem, (decide (r.id = j.item) && decide (r.state = .claimed)) →
      r.state = .claimed := by
    intro r hr
    rw [Bool.and_eq_true] at hr
    exact of_decide_eq_true hr.2
  cases ok with
  | false =>
    exact h.released (.retried now) (fun _ => rfl) (fun _ => rfl) (fun _ => rfl) hclaimed
      (fun r hr => released_retried hr now) rfl rfl rfl halone
  | true =>
    exact h.released .complete (fun _ => rfl) (fun _ => rfl) (fun _ => rfl) hclaimed
      (fun r hr => released_complete hr) rfl rfl rfl halone

theorem Kept.forget {j : Job} (hj : s.jobs.find? j.worker = some j) : Kept (s.forget j) := by
  obtain ⟨hjmem, -⟩ := find?_eq_some.mp hj
  refine ⟨h.fair, h.known, h.apart, h.limits, fun ho => ?_⟩
  obtain ⟨hmarked, hclaimed, halone⟩ := h.alone ho
  refine ⟨?_, ?_, ?_⟩
  · intro k hk
    obtain ⟨hk, hw⟩ := mem_delete.mp hk
    refine mem_filter.mpr ⟨hmarked k hk, ?_⟩
    simp only [decide_eq_true_eq]
    exact fun heq => hw (halone k hk j hjmem heq ▸ rfl)
  · exact fun k hk => hclaimed k (mem_delete.mp hk).1
  · exact fun k hk k' hk' => halone k (mem_delete.mp hk).1 k' (mem_delete.mp hk').1

theorem Kept.setClaimLimit {kind : List Char} {limit : Option Nat}
    (hlimit : ∀ n ∈ limit, ∃ m ∈ s.limits kind, m ≤ n) :
        Kept { s with limits := Function.update s.limits kind limit } := by
  refine ⟨h.fair, h.known, h.apart, fun k n hn => ?_, fun ho =>
    ⟨(h.alone ho).1, (h.alone ho).2, (h.alone ho).3⟩⟩
  change n ∈ Function.update s.limits kind limit k at hn
  by_cases hk : k = kind
  · subst hk
    rw [Function.update_self] at hn
    obtain ⟨m, hm, hle⟩ := hlimit n hn
    exact le_trans (h.limits k m hm) hle
  · rw [Function.update_of_ne hk] at hn
    exact h.limits k n hn

theorem Kept.step (hstep : Step s s') : Kept s' := by
  cases hstep with
  | enqueue id kind dedupKey scheduled leaseMs maxRetries =>
    exact h.enqueue id kind dedupKey scheduled leaseMs maxRetries
  | setClaimLimit kind limit hlimit => exact h.setClaimLimit hlimit
  | sweep now => exact h.sweep now
  | claim worker r now hfree hr hclaim => exact h.claim worker hfree hr hclaim
  | settle j ok now hj _ => exact h.settle ok now hj
  | forget j hj _ => exact h.forget hj
  | restart => exact ⟨h.fair, h.known, h.apart, h.limits, fun _ => ⟨nofun, nofun, nofun⟩⟩

end

theorem kept_steps {limits : List Char → Option Nat} (h : Steps (.start limits) s) : Kept s := by
  induction h with
  | refl => exact kept_start limits
  | tail _ hstep ih => exact ih.step hstep

/-- No item is tried too often, no work is queued twice and no limit is passed; and while no
item is claimed that still has the mark of its last worker, none is run twice at a time. -/
theorem run_once_at_a_time {limits : List Char → Option Nat} {s : State} (h : Steps (.start limits) s) :
    (∀ r ∈ s.items.rows, s.started.count r.id ≤ r.maxRetries) ∧ s.items.rows.Pairwise Apart ∧
      (∀ kind, ∀ n ∈ s.limits kind, claimedOf kind s.items ≤ n) ∧
      (s.overtaken = false → ∀ j ∈ s.jobs.rows, ∀ j' ∈ s.jobs.rows,
        j.settled = false → j'.settled = false → j.item = j'.item → j = j') := by
  have hk : Kept s := kept_steps h
  refine ⟨fun r hr => ?_, hk.apart, hk.limits, fun ho j hj j' hj' _ _ => (hk.alone ho).alone j hj j' hj'⟩
  obtain ⟨hcount, hmax⟩ := hk.fair r hr
  rw [hcount]
  unfold begun
  cases hst : r.state <;> simp [hst] at hmax ⊢ <;> omega

end

/-! ### An item that is run twice -/

def free : List Char → Option Nat := fun _ => none

def X : WorkItem := newItem ['x'] ['k'] () [] 0 1 3

def tried (now : Int) (n : Nat) : WorkItem := { X with retryCount := n, scheduled := now }

/-- Worker 0 fails the item and has not removed its mark when worker 1 claims the item. The
mark it then removes is worker 1's, so the sweep of worker 2 gives the item out again. -/
theorem run_twice_at_a_time : ∃ s, Steps (.start free) s ∧ ∃ j ∈ s.jobs.rows, ∃ j' ∈ s.jobs.rows,
      j.settled = false ∧ j'.settled = false ∧ j.item = j'.item ∧ j ≠ j' := by
  have h1 : Steps (.start free) ((State.start free).enqueue X) := .single (.enqueue ['x'] ['k'] [] 0 1 3)
  have h2 := h1.tail (.claim 0 X 0 (by decide) (by decide) (by decide))
  have h3 := h2.tail (.settle ⟨0, ['x'], false⟩ false 0 (by decide) rfl)
  have h4 := h3.tail (.claim 1 (tried 1000 1) 1000 (by decide) (by decide) (by decide))
  have h5 := h4.tail (.forget ⟨0, ['x'], true⟩ (by decide) rfl)
  have h6 := h5.tail (.sweep 2000)
  have h7 := h6.tail (.claim 2 (tried 4000 2) 4000 (by decide) (by decide) (by decide))
  exact ⟨_, h7, ⟨1, ['x'], false⟩, by decide, ⟨2, ['x'], false⟩, by decide, rfl, rfl, rfl, by decide⟩

/-- Worker 0 fails the item, removes its mark and goes on to another; worker 1 runs the first again. -/
theorem run_once_at_a_time_again : ∃ s, Steps (.start free) s ∧ s.overtaken = false ∧
    s.started = [['y'], ['x'], ['x']] ∧ s.jobs.rows = [⟨1, ['x'], false⟩, ⟨0, ['y'], false⟩] ∧
    ∀ j ∈ s.jobs.rows, ∀ j' ∈ s.jobs.rows, j.settled = false → j'.settled = false →
    j.item = j'.item → j = j' := by
  have h1 : Steps (.start free) ((State.start free).enqueue X) := .single (.enqueue ['x'] ['k'] [] 0 1 3)
  have h2 := h1.tail (.enqueue ['y'] ['k'] [] 0 1 3)
  have h3 := h2.tail (.claim 0 X 0 (by decide) (by decide) (by decide))
  have h4 := h3.tail (.settle ⟨0, ['x'], false⟩ false 0 (by decide) rfl)
  have h5 := h4.tail (.forget ⟨0, ['x'], true⟩ (by decide) rfl)
  have h6 := h5.tail (.claim 1 (tried 1000 1) 1000 (by decide) (by decide) (by decide))
  have h7 := h6.tail (.claim 0 { X with id := ['y'] } 1000 (by decide) (by decide) (by decide))
  exact ⟨_, h7, rfl, rfl, rfl, (run_once_at_a_time h7).2.2.2 rfl⟩

end AiiOs.Cognitive.WorkQueue
