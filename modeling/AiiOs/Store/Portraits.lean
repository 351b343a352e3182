import AiiOs.Store.Evidence
import AiiOs.Lib.Successor

/-! The portraits of self_model.go. Each one that is taken becomes the current one, also
where a historical record uses an id again; the others lead to it. -/

namespace AiiOs.Store
open Lib Lib.Json AiiOs.Ledger List Option Table

def successor (t : Table SelfModel.id) (id : Text) : Option Text :=
  (t.find? id).bind SelfModel.supersededBy

variable {t t' : Table SelfModel.id} {m row : SelfModel} {p : Projection} {historical : Bool}

theorem successor_of_mem (h : m ∈ t.rows) : successor t m.id = m.supersededBy := by
  rw [successor, find?_eq_some.mpr ⟨h, rfl⟩, bind_some]

/-! ### One event -/

theorem currentSelfModelLocked_eq_none : currentSelfModelLocked p = .ok none ↔
      p.selfModels.rows.filter (fun m => m.supersededBy = none) = [] := by
  rw [currentSelfModelLocked]
  rcases p.selfModels.rows.filter _ with _ | ⟨a, _ | ⟨b, ms⟩⟩ <;> simp

theorem currentSelfModelLocked_eq_some : currentSelfModelLocked p = .ok (some m) ↔
      p.selfModels.rows.filter (fun m => m.supersededBy = none) = [m] := by
  rw [currentSelfModelLocked]
  rcases p.selfModels.rows.filter _ with _ | ⟨a, _ | ⟨b, ms⟩⟩ <;> simp

variable {evt : Event} {q : Projection}

theorem readPortrait_current {w : SelfModelSynthesisPayload} {refs : List SourceRef}
    {current : Option SelfModel} (h : readPortrait evt p = .ok (w, refs, current, historical)) :
    currentSelfModelLocked p = .ok current := by
  simp only [readPortrait, bind_eq_ok] at h
  obtain ⟨⟨payload, old⟩, -, h⟩ := h
  cases old with
  | true =>
    simp only [if_true, bind_eq_ok] at h
    obtain ⟨c, hc, h⟩ := h
    cases h
    exact hc
  | false =>
    simp only [Bool.false_eq_true, if_false, bind_eq_ok] at h
    obtain ⟨⟨w', refs', c⟩, hvalid, h⟩ := h
    cases h
    simp only [validateSelfModelPayloadLocked, bind_eq_ok] at hvalid
    obtain ⟨_, -, _, -, _, -, _, -, c, hc, hvalid⟩ := hvalid
    cases c with
    | none =>
      simp only [bind_eq_ok] at hvalid
      obtain ⟨_, -, hvalid⟩ := hvalid
      cases hvalid
      exact hc
    | some m =>
      simp only [bind_eq_ok] at hvalid
      obtain ⟨_, -, _, -, hvalid⟩ := hvalid
      cases hvalid
      exact hc

theorem insertPortrait_find? (h : insertPortrait t row historical = .ok t') (id : Text) :
    t'.find? id = if id = row.id then some row else t.find? id := by
  rw [insertPortrait] at h
  split_ifs at h with hold
  · cases h
    exact find?_replace id
  · rw [orRefuse_eq_ok] at h
    obtain ⟨hfree, rfl⟩ := insert?_eq_some.mp h
    exact find?_push hfree id

theorem supersedePortrait_find? {c : SelfModel} {id : Text} (h : supersedePortrait t (some c) id = .ok t')
    (hne : c.id ≠ id) :
    ∃ r, t.find? c.id = some r ∧
      ∀ id', t'.find? id' = if id' = c.id then some { r with supersededBy := some id } else t.find? id' := by
  simp only [supersedePortrait, if_neg hne] at h
  split_ifs at h with hone
  cases h
  have hp : ∀ m : SelfModel, (m.id = c.id && m.supersededBy = none) → m.id = c.id := by
    intro m hm
    simp only [Bool.and_eq_true, decide_eq_true_eq] at hm
    exact hm.1
  obtain ⟨r, hr, hpr⟩ := (affected_eq_one hp).mp hone
  exact ⟨r, hr, find?_update_one _ hp hr hpr⟩

/-! ### The current portrait -/

/-- `m` is a current portrait and every way along the successors ends there. -/
structure Current (t : Table SelfModel.id) (m : SelfModel) : Prop where
  mem : m ∈ t.rows
  unsuperseded : m.supersededBy = none
  ends : ∀ r ∈ t.rows, Ends (successor t) r.id m.id

theorem Current.unique {r : SelfModel} (h : Current t m) (hr : r ∈ t.rows)
    (hnone : r.supersededBy = none) : r = m :=
  eq_of_key_eq hr h.mem ((h.ends r hr).eq_of_next_eq_none ((successor_of_mem hr).trans hnone))

theorem Current.filter (h : Current t m) : t.rows.filter (fun m => m.supersededBy = none) = [m] := by
  have hnodup : (t.rows.filter (·.supersededBy = none)).Nodup := (Nodup.of_map SelfModel.id t.nodup).filter _
  refine perm_singleton.mp ((perm_ext_iff_of_nodup hnodup (nodup_singleton m)).mpr ?_)
  intro r
  simp only [mem_filter, decide_eq_true_eq, mem_singleton]
  constructor
  · rintro ⟨hr, hnone⟩
    exact h.unique hr hnone
  · rintro rfl
    exact ⟨h.mem, h.unsuperseded⟩

section
variable (h : insertPortrait t row historical = .ok t') (hrow : row.supersededBy = none)
include h hrow

theorem current_first (ht : t.rows = []) : Current t' row := by
  have hfind := insertPortrait_find? h
  have hempty : ∀ id, t.find? id = none := fun id => by simp [Table.find?, ht]
  have hmem : row ∈ t'.rows := (find?_eq_some.mp ((hfind row.id).trans (if_pos rfl))).1
  refine ⟨hmem, hrow, fun r hr => ?_⟩
  have hr' := find?_eq_some.mpr ⟨hr, rfl⟩
  rw [hfind, hempty] at hr'
  split_ifs at hr' with hid
  rw [hid]
  exact .stop ((successor_of_mem hmem).trans hrow)

theorem current_again (ht : Current t m) (hid : m.id = row.id) : Current t' row := by
  have hfind := insertPortrait_find? h
  have hmem : row ∈ t'.rows := (find?_eq_some.mp ((hfind row.id).trans (if_pos rfl))).1
  -- the row that went had no successor either
  have hsame : ∀ id, successor t' id = successor t id := by
    intro id
    rw [successor, hfind]
    split_ifs with he
    · rw [he, ← hid, successor_of_mem ht.mem, ht.unsuperseded, bind_some, hrow]
    · rfl
  refine ⟨hmem, hrow, fun r hr => ?_⟩
  have hr' := find?_eq_some.mpr ⟨hr, rfl⟩
  rw [hfind] at hr'
  split_ifs at hr' with he
  · rw [he]
    exact .stop ((successor_of_mem hmem).trans hrow)
  · rw [← hid]
    exact (ht.ends r (find?_eq_some.mp hr').1).congr hsame

theorem current_next {t'' : Table SelfModel.id} (ht : Current t m) (hid : m.id ≠ row.id)
    (h' : supersedePortrait t' (some m) row.id = .ok t'') : Current t'' row := by
  have hfind := insertPortrait_find? h
  obtain ⟨old, hold, hfind'⟩ := supersedePortrait_find? h' hid
  have hrow' : t''.find? row.id = some row := by rw [hfind', if_neg hid.symm, hfind, if_pos rfl]
  have hnew : successor t'' row.id = none := by rw [successor, hrow', bind_some, hrow]
  have hnext : successor t'' m.id = some row.id := by rw [successor, hfind', if_pos rfl, bind_some]
  have hother : ∀ id, id ≠ m.id → id ≠ row.id → successor t'' id = successor t id := by
    intro id hne hne'
    rw [successor, hfind', if_neg hne, hfind, if_neg hne']
    rfl
  refine ⟨(find?_eq_some.mp hrow').1, hrow, fun r hr => ?_⟩
  have hr' := find?_eq_some.mpr ⟨hr, rfl⟩
  have hends : ∀ r ∈ t.rows, Ends (successor t'') r.id row.id := fun r hr => by
    rcases (ht.ends r hr).redirect hnext hnew hother with hend | ⟨hne, -⟩
    · exact hend
    · exact absurd rfl hne
  by_cases hrid : r.id = row.id
  · rw [hrid]
    exact .stop hnew
  · by_cases hrm : r.id = m.id
    · rw [hrm]
      exact hends m ht.mem
    · rw [hfind', if_neg hrm, hfind, if_neg hrid] at hr'
      exact hends r (find?_eq_some.mp hr').1

end

theorem materializeSelfModelSynthesis_current (hp : p.selfModels.rows = [] ∨ ∃ m, Current p.selfModels m)
    (hq : materializeSelfModelSynthesis evt p = .ok q) : ∃ m, Current q.selfModels m := by
  simp only [materializeSelfModelSynthesis, bind_eq_ok, pure_eq_ok] at hq
  obtain ⟨⟨w, refs, current, historical⟩, hread, t, ht, t', ht', rfl⟩ := hq
  have hcurrent := readPortrait_current hread
  cases current with
  | none =>
    rcases hp with hp | ⟨m, hm⟩
    · cases ht'
      exact ⟨_, current_first ht rfl hp⟩
    · rw [currentSelfModelLocked_eq_none, hm.filter] at hcurrent
      cases hcurrent
  | some c =>
    rw [currentSelfModelLocked_eq_some] at hcurrent
    rcases hp with hp | ⟨m, hm⟩
    · rw [hp] at hcurrent
      cases hcurrent
    · obtain rfl : m = c := singleton_injective (hm.filter.symm.trans hcurrent)
      by_cases hid : m.id = w.id
      · rw [supersedePortrait, if_pos hid] at ht'
        cases ht'
        exact ⟨_, current_again ht rfl hm hid⟩
      · exact ⟨_, current_next ht rfl hm hid ht'⟩

/-! ### Any sequence of portraits -/

theorem exists_current {evts : List Event} (hp : p.selfModels = .empty)
    (hq : (evt :: evts).foldlM (fun p evt => materializeSelfModelSynthesis evt p) p = .ok q) :
    ∃ m, Current q.selfModels m := by
  obtain ⟨r, hr, hq⟩ := bind_eq_ok.mp hq
  have hfirst := materializeSelfModelSynthesis_current (.inl (by rw [hp]; rfl)) hr
  refine foldlM_ok_invariant (P := fun p => ∃ m, Current p.selfModels m) hq hfirst ?_
  intro p evt q _ hp hq
  exact materializeSelfModelSynthesis_current (.inr hp) hq

/-- After the first portrait exactly one is current, it is the one that is reported, and
from every portrait the successors lead to it; never is more than one reported. -/
theorem one_current_portrait {p q : Projection} {evts : List Event} (hp : p.selfModels = .empty)
    (hq : evts.foldlM (fun p evt => materializeSelfModelSynthesis evt p) p = .ok q) :
    (∀ n, currentSelfModelLocked q ≠ .error (.selfModelRows n)) ∧
      (evts ≠ [] → ∃ m, currentSelfModelLocked q = .ok (some m) ∧
        q.selfModels.rows.filter (fun m => m.supersededBy = none) = [m] ∧
        ∀ r ∈ q.selfModels.rows, Ends (successor q.selfModels) r.id m.id) := by
  cases evts with
  | nil =>
    cases hq
    have hnone : currentSelfModelLocked p = .ok none := by
      rw [currentSelfModelLocked_eq_none, hp]
      rfl
    exact ⟨fun n => by simp [hnone], fun h => absurd rfl h⟩
  | cons evt evts =>
    obtain ⟨m, hm⟩ := exists_current hp hq
    have hsome := currentSelfModelLocked_eq_some.mpr hm.filter
    exact ⟨fun n => by simp [hsome], fun _ => ⟨m, hsome, hm.filter, hm.ends⟩⟩

/-- Two historical portraits, one in the current form that names its predecessor, and the
first id once more. -/
def mixedPortraits : List Event :=
  [plainArrival 1 "self_model.synthesize" "\x7b\"id\":\"a\",\"content\":\"x\"\x7d",
    plainArrival 2 "self_model.synthesize" "\x7b\"id\":\"b\",\"content\":\"y\"\x7d",
    plainArrival 3 "self_model.synthesize" ("\x7b\"id\":\"c\",\"synthesis_text\":\"z\"," ++
      "\"continuity_thread\":\"t\",\"previous_synthesis_id\":\"b\"\x7d"),
    plainArrival 4 "self_model.synthesize" "\x7b\"id\":\"a\",\"content\":\"w\"\x7d"].map
      Arrival.event

theorem one_current_portrait_mixed :
    ∃ q, mixedPortraits.foldlM (fun p evt => materializeSelfModelSynthesis evt p) .empty = .ok q ∧
      q.selfModels.rows.length = 3 ∧ (∀ n, currentSelfModelLocked q ≠ .error (.selfModelRows n)) ∧
      ∃ m, currentSelfModelLocked q = .ok (some m) ∧
        q.selfModels.rows.filter (fun m => m.supersededBy = none) = [m] ∧
        ∀ r ∈ q.selfModels.rows, Ends (successor q.selfModels) r.id m.id := by
  have hrun : (mixedPortraits.foldlM (fun p evt => materializeSelfModelSynthesis evt p)
      .empty).map (·.selfModels.rows.length) = .ok 3 := by
    decide +kernel
  obtain ⟨q, hq, hrows⟩ := map_eq_ok.mp hrun
  obtain ⟨hnever, hone⟩ := one_current_portrait rfl hq
  exact ⟨q, hq, hrows, hnever, hone (by decide)⟩

end AiiOs.Store
