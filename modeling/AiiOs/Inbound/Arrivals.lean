import AiiOs.Lib.Table
import AiiOs.Lib.Text

/-! internal/app, channels.go and webhooks.go, with internal/store, messaging.go: the arrivals an adapter, a
webhook or a scheduled call answers with are recorded under one key and reported back. The rows outlast a
restart; answers that run beside each other are the answers of one arrival each, in some order. -/

namespace AiiOs.Inbound
open Lib List Table

structure Arrival where
  id : List Char
  sender : List Char
  body : List Char

/-- A row of the table `inbound`. -/
structure Row where
  id : List Char
  channel : List Char
  address : List Char
  body : List Char

/-- `reported` and `carried` keep what the adapters were told and the calls of `carryInbound`, by channel. -/
structure Host where
  rows : Table Row.id
  reported : List (List Char × Arrival)
  carried : List (List Char × List Char)

/-- `^[a-z0-9][a-z0-9._-]{0,31}$`. -/
def channelName : List Char → Bool
  | [] => false
  | c :: cs => (c.isLower || c.isDigit) && cs.length ≤ 31 &&
    cs.all fun c => c.isLower || c.isDigit || c = '.' || c = '_' || c = '-'

def rowID (channel id : List Char) : List Char := charsOf "in_" ++ (channel ++ '_' :: id)

/-- Whether the row is new, none for an error; `fails` is the store's. -/
def recordInbound (fails : Bool) (r : Row) (rows : Table Row.id) : Option (Bool × Table Row.id) :=
  if r.id = [] ∨ r.channel = [] ∨ r.address = [] ∨ fails then none
  else
    match rows.insert? r with
    | none => some (false, rows) -- ON CONFLICT(id) DO NOTHING
    | some rows' => some (true, rows')

structure Taken where
  host : Host
  fresh : Nat
  held : List (List Char)
  unrecorded : Nat

/-- The arrival is reported back as recorded. -/
def Taken.hold (t : Taken) (channel : List Char) (x : Arrival) : Taken := { t with
    held := t.held ++ [x.id]
    host := { t.host with reported := t.host.reported ++ [(channel, x)] } }

def takeArrival (channel : List Char) (t : Taken) : Arrival × Bool → Taken
  | (x, fails) =>
    if x.id = [] then t
    else if x.sender = [] then t.hold channel x
    else
      match recordInbound fails ⟨rowID channel x.id, channel, x.sender, x.body⟩ t.host.rows with
      | none => { t with unrecorded := t.unrecorded + 1 }
      | some (false, _) => t.hold channel x
      | some (true, rows) =>
        { t.hold channel x with
          fresh := t.fresh + 1
          host := ⟨rows, t.host.reported ++ [(channel, x)], t.host.carried ++ [(channel, x.id)]⟩ }

def carryArrivals (channel : List Char) (h : Host) (arrivals : List (Arrival × Bool)) : Taken :=
  arrivals.foldl (takeArrival channel) ⟨h, 0, [], 0⟩

/-- The host after a sequence of answers, each of one channel. -/
def Host.run (h : Host) (answers : List (List Char × List (Arrival × Bool))) : Host :=
  answers.foldl (fun h a => (carryArrivals a.1 h a.2).host) h

def Host.new : Host := ⟨.empty, [], []⟩

/-- Recorded under the channel and the id. -/
def under (channel id : List Char) (y : List Char × Arrival) : Bool :=
  y.2.sender ≠ [] && y.1 = channel && y.2.id = id

/-- Recorded under the key. -/
def underKey (k : List Char) (y : List Char × Arrival) : Bool := y.2.sender ≠ [] && rowID y.1 y.2.id = k

def rowOf (y : List Char × Arrival) : Row := ⟨rowID y.1 y.2.id, y.1, y.2.sender, y.2.body⟩

variable {h : Host} {t : Taken} {c c' i i' : List Char} {y : List Char × Arrival}

/-- The row under a key is the one of the first arrival recorded under it. -/
structure Kept (h : Host) : Prop where
  rows : ∀ k, h.rows.find? k = (h.reported.find? (underKey k)).map rowOf
  plain : ∀ y ∈ h.reported, '_' ∉ y.1
  once : h.carried.Nodup
  held : ∀ y ∈ h.carried, h.rows.Holds (rowID y.1 y.2)

/-- An arrival with no sender, or one under a key that is taken, is reported. -/
theorem Kept.hold (hk : Kept h) (hc : '_' ∉ y.1) (hy : y.2.sender ≠ [] → h.rows.Holds (rowID y.1 y.2.id)) :
    Kept { h with reported := h.reported ++ [y] } where
  rows k := by
    rw [hk.rows, find?_append]
    cases hfind : h.reported.find? (underKey k) with
    | some z => rfl
    | none =>
      have hnot : underKey k y = false := by
        by_contra hkey
        obtain ⟨hs, rfl⟩ : y.2.sender ≠ [] ∧ rowID y.1 y.2.id = k := by simpa [underKey] using hkey
        exact find?_eq_none.mp ((hk.rows _).trans (by rw [hfind]; rfl)) (hy hs)
      simp [hnot]
  plain := forall_mem_append.mpr ⟨hk.plain, by simpa using hc⟩
  once := hk.once
  held := hk.held

theorem Kept.push (hk : Kept h) (hc : '_' ∉ y.1) (hs : y.2.sender ≠ []) (hnew : ¬ h.rows.Holds (rowOf y).id) :
    Kept ⟨h.rows.push (rowOf y) hnew, h.reported ++ [y], h.carried ++ [(y.1, y.2.id)]⟩ where
  rows k := by
    simp only [find?_push, find?_append]
    split_ifs with hkey
    · have hnone := (hk.rows k).symm.trans (find?_eq_none.mpr (hkey ▸ hnew))
      rw [Option.map_eq_none_iff.mp hnone, hkey]
      simp [underKey, hs, rowOf]
    · have hnot : underKey k y = false := by simpa [underKey] using fun _ h => hkey h.symm
      rw [hk.rows]
      simp [hnot]
  plain := forall_mem_append.mpr ⟨hk.plain, by simpa using hc⟩
  once := by
    refine nodup_append.mpr ⟨hk.once, nodup_singleton _, ?_⟩
    rintro z hz w hw rfl
    cases mem_singleton.mp hw
    exact hnew (hk.held _ hz)
  held := forall_mem_append.mpr ⟨fun z hz => (holds_push hnew).mpr (.inl (hk.held z hz)),
    by simp [holds_push, rowOf]⟩

theorem Kept.take (hk : Kept t.host) (hc : '_' ∉ c) (o : Arrival × Bool) : Kept (takeArrival c t o).host := by
  obtain ⟨x, fails⟩ := o
  simp only [takeArrival]
  split_ifs with hid hs
  · exact hk
  · exact @Kept.hold _ (c, x) hk hc (absurd hs)
  · simp only [recordInbound]
    split_ifs
    · exact hk
    · cases hins : t.host.rows.insert? ⟨rowID c x.id, c, x.sender, x.body⟩ with
      | none =>
        refine @Kept.hold _ (c, x) hk hc fun _ => ?_
        by_contra hnot
        rw [insert?, dif_neg hnot] at hins
        cases hins
      | some rows =>
        obtain ⟨hnew, rfl⟩ := insert?_eq_some.mp hins
        exact @Kept.push _ (c, x) hk hc hs hnew

theorem Kept.run (hk : Kept h) {answers : List (List Char × List (Arrival × Bool))}
    (hplain : ∀ a ∈ answers, '_' ∉ a.1) : Kept (h.run answers) := by
  induction answers generalizing h with
  | nil => exact hk
  | cons a answers ih =>
    rw [forall_mem_cons] at hplain
    refine ih (foldlRecOn (motive := fun t : Taken => Kept t.host) a.2 (takeArrival a.1) hk ?_) hplain.2
    exact fun t ht o _ => ht.take hplain.1 o

/-- What is reported as recorded has the row of the first arrival recorded under its channel and id, no two
of them share a row, and each is carried at most once. -/
structure RecordedApart (h : Host) : Prop where
  recorded : ∀ y ∈ h.reported, y.2.sender ≠ [] → ∃ z, h.reported.find? (under y.1 y.2.id) = some z ∧
    h.rows.find? (rowID y.1 y.2.id) = some (rowOf z)
  apart : ∀ y ∈ h.reported, ∀ z ∈ h.reported, rowID y.1 y.2.id = rowID z.1 z.2.id →
    y.1 = z.1 ∧ y.2.id = z.2.id
  once : h.carried.Nodup

/-- Where no channel's name has an underscore, every arrival is recorded on its own. -/
theorem arrivals_recorded_apart (answers : List (List Char × List (Arrival × Bool)))
    (hplain : ∀ a ∈ answers, '_' ∉ a.1) : RecordedApart (Host.new.run answers) := by
  have hk : Kept (Host.new.run answers) :=
    .run ⟨fun _ => rfl, by simp [Host.new], nodup_nil, by simp [Host.new]⟩ hplain
  generalize Host.new.run answers = h at hk ⊢
  have hinj : ∀ y ∈ h.reported, ∀ z ∈ h.reported, rowID y.1 y.2.id = rowID z.1 z.2.id →
      y.1 = z.1 ∧ y.2.id = z.2.id :=
    fun y hy z hz hid => append_sep_inj (hk.plain y hy) (hk.plain z hz) (append_cancel_left hid)
  refine ⟨fun y hy hs => ?_, hinj, hk.once⟩
  -- under this key are the arrivals under this channel and this id
  have hsame : h.reported.filter (underKey (rowID y.1 y.2.id)) = h.reported.filter (under y.1 y.2.id) := by
    refine filter_congr fun z hz => ?_
    grind [underKey, under]
  have hrow := hk.rows (rowID y.1 y.2.id)
  rw [← head?_filter, hsame, head?_filter] at hrow
  cases hfind : h.reported.find? (under y.1 y.2.id) with
  | none => simpa [under, hs] using List.find?_eq_none.mp hfind y hy
  | some z => exact ⟨z, rfl, by rw [hrow, hfind]; rfl⟩

/-- Two channels answer with one id, and the first offers its arrival again with another body. -/
def offeredAgain : Host := Host.new.run
  [(['a'], [(⟨['i'], ['s'], ['x']⟩, false)]), (['b'], [(⟨['i'], ['t'], ['y']⟩, false)]),
    (['a'], [(⟨['i'], ['s'], ['z']⟩, false)])]

theorem arrivals_recorded_apart_again : offeredAgain.reported.length = 3 ∧
    offeredAgain.carried = [(['a'], ['i']), (['b'], ['i'])] ∧
    offeredAgain.rows.rows.map Row.body = [['x'], ['y']] ∧ RecordedApart offeredAgain :=
  ⟨rfl, rfl, rfl, arrivals_recorded_apart _ (by simp)⟩

/-- Two channels of proper names share a key: the second arrival is reported as recorded, and is nowhere. -/
theorem underscore_shares_row : channelName ['a'] ∧ channelName ['a', '_', 'b'] ∧
    ∃ h, Host.new.run [(['a'], [(⟨['b', '_', 'c'], ['s'], ['x']⟩, false)]),
      (['a', '_', 'b'], [(⟨['c'], ['t'], ['y']⟩, false)])] = h ∧
      h.reported.length = 2 ∧ h.rows.rows.map Row.channel = [['a']] :=
  ⟨by decide, by decide, _, rfl, rfl, rfl⟩

end AiiOs.Inbound
