import AiiOs.Store.Effects
import Mathlib.Data.List.Induction

/-! The operator's rows form one line: each is superseded by the next and the last is
the operator's current row. Only an operator payload under a new id lengthens it. -/

namespace AiiOs.Store
open Lib Lib.Json AiiOs.Ledger List Option

/-! ### Lines of succession -/

def succession : List Text → List (Text × Option Text)
  | [] => []
  | a :: l => (a, l.head?) :: succession l

/-- The row under `old` gets a successor where it has none. -/
def succeed (old new : Text) (r : Text × Option Text) : Text × Option Text :=
  if r.1 = old ∧ r.2 = none then (r.1, some new) else r

def isLast (r : Text × Option Text) : Bool := r.2 = none

theorem succeed_succession_concat (l : List Text) (old new : Text) :
    (succession (l ++ [old])).map (succeed old new) ++ [(new, none)] = succession (l ++ [old, new]) := by
  induction l with
  | nil => simp [succession, succeed]
  | cons a l ih =>
    rw [cons_append, cons_append, succession, succession, map_cons, cons_append, ih]
    cases l <;> simp [succeed]

theorem last_mem_succession (l : List Text) (a : Text) : (a, none) ∈ succession (l ++ [a]) := by
  induction l with
  | nil => simp [succession]
  | cons b l ih => exact mem_cons_of_mem _ ih

variable {l : List Text} {r : Relationship} {q p : Projection}

theorem succeed_succession_of_ne {old new : Text} (h : l.getLast? ≠ some old) :
    (succession l).map (succeed old new) = succession l := by
  induction l with
  | nil => rfl
  | cons a l ih =>
    cases l with
    | nil => simpa [succession, succeed] using h
    | cons b l =>
      rw [succession, map_cons, ih (by simpa using h)]
      simp [succeed]

theorem countP_isLast_succession (h : l ≠ []) : (succession l).countP isLast = 1 := by
  induction l with
  | nil => exact absurd rfl h
  | cons a l ih =>
    cases l with
    | nil => rfl
    | cons b l =>
      rw [succession, countP_cons, ih (by simp)]
      simp [isLast]

theorem eq_nil_of_countP_concat {id : Text} (h : (succession l ++ [(id, none)]).countP isLast = 1) :
    l = [] := by
  by_contra hl
  rw [countP_append, countP_isLast_succession hl] at h
  simp [isLast] at h

theorem countP_isLast_succeed (l : List Text) (old new : Text) :
    ((succession (l ++ [old])).map (succeed old new)).countP isLast = 0 := by
  have h := countP_isLast_succession (l := l ++ [old, new]) (by simp)
  rw [← succeed_succession_concat] at h
  simpa [isLast] using h

/-! ### The operator's rows -/

def operators (t : Table Relationship.id) : List (Text × Option Text) :=
  (t.rows.filter fun r => r.counterpartRole = .operator).map fun r => (r.id, r.supersededBy)

theorem operatorCount_eq (t : Table Relationship.id) : operatorCount t = (operators t).countP isLast := by
  rw [operators, countP_map, countP_filter]
  refine countP_congr fun r _ => ?_
  simp [Relationship.currentOperator, isLast, and_comm]

variable {t : Table Relationship.id} {ids : List Text}

theorem mem_operators {x : Text × Option Text} :
    x ∈ operators t ↔ ∃ r ∈ t.rows, r.counterpartRole = .operator ∧ (r.id, r.supersededBy) = x := by
  simp [operators, and_assoc]

theorem operators_update {c : Relationship → Bool} {f : Relationship → Relationship}
    (hf : ∀ r, (f r).id = r.id) (hrole : ∀ r, (f r).counterpartRole = r.counterpartRole)
    {g : Text × Option Text → Text × Option Text}
    (hg : ∀ r, ((if c r then f r else r).id, (if c r then f r else r).supersededBy) =
      g (r.id, r.supersededBy)) :
    operators (t.update c f hf) = (operators t).map g := by
  have hkeep : ∀ r, (if c r then f r else r).counterpartRole = r.counterpartRole := fun r => by
    split_ifs
    · exact hrole r
    · rfl
  rw [operators, operators, Table.update, List.filter_map, List.map_map, List.map_map]
  simp only [Function.comp_def, hkeep, hg]

theorem operators_upsert (t : Table Relationship.id) (r : Relationship) :
    operators (upsertRelationship t r) = if t.Holds r.id then operators t
      else operators t ++ if r.counterpartRole = .operator then [(r.id, r.supersededBy)] else [] := by
  rw [upsertRelationship, Table.upsert]
  by_cases hheld : t.Holds r.id
  · rw [dif_pos hheld, if_pos hheld]
    refine (operators_update (g := id) _ (by intro _; rfl) fun o => ?_).trans (List.map_id _)
    by_cases h : o.id = r.id <;> simp [h]
  · rw [dif_neg hheld, if_neg hheld]
    by_cases h : r.counterpartRole = .operator <;> simp [operators, Table.push, h]

theorem operators_supersede (t : Table Relationship.id) (old new : Text) :
    operators (supersedeRelationship t old new) = (operators t).map (succeed old new) := by
  refine operators_update _ (by intro _; rfl) fun r => ?_
  by_cases h : r.id = old ∧ r.supersededBy = none
  · simp [succeed, h]
  · rw [succeed, if_neg h, if_neg (by simpa using h)]

theorem ofText?_eq_operator {t : Text} :
    CounterpartRole.ofText? t = some .operator ↔ t = "operator".toList := by
  constructor
  · intro h
    obtain ⟨⟨name, role⟩, hfind, hrole⟩ := map_eq_some_iff.mp h
    have hmem := mem_of_find?_eq_some hfind
    have hname : name.toList = t := by simpa using find?_some hfind
    cases hrole
    rcases mem_cons.mp hmem with h | h
    · cases h
      exact hname.symm
    · cases mem_singleton.mp h
  · rintro rfl
    decide

theorem relationshipRow_eq_some {seq : Nat} {q : RelationshipPayload} {row : Relationship}
    (h : relationshipRow seq q = some row) : row.id = q.id ∧ row.supersededBy = none ∧
      (row.counterpartRole = .operator ↔ q.counterpartRole = "operator".toList) := by
  simp only [relationshipRow, bind_eq_bind, bind_eq_some_iff] at h
  obtain ⟨role, hrole, _, -, _, -, _, -, h⟩ := h
  cases h
  refine ⟨rfl, rfl, ?_⟩
  rw [← ofText?_eq_operator, hrole, some_inj]

/-! ### One event -/

theorem supersedesFound_eq_ok {q : RelationshipInvariants}
    (h : supersedesFound p q = .ok ()) (hne : q.supersedes ≠ []) :
    ∃ row ∈ p.relationships.rows, row.id = q.supersedes ∧
      (row.counterpartRole = .operator → q.counterpartRole = "operator".toList) := by
  rw [supersedesFound, if_neg hne] at h
  cases hfind : p.relationships.find? q.supersedes with
  | none =>
    rw [hfind] at h
    cases h
  | some row =>
    obtain ⟨hmem, hid⟩ := Table.find?_eq_some.mp hfind
    rw [hfind] at h
    simp only [require_eq_ok, not_and, not_not] at h
    exact ⟨row, hmem, hid, h⟩

theorem materializeRelationshipLocked_line {evt : Event}
    (hp : operators p.relationships = succession ids) (h : materializeRelationshipLocked evt p = .ok q) :
    operators q.relationships = succession ids ∨ ∃ id, operators q.relationships =
      succession (ids ++ [id]) := by
  simp only [materializeRelationshipLocked, validateRelationshipLocked, bind_eq_ok, pure_eq_ok,
    orRefuse_eq_ok, require_eq_ok, operatorCount_eq] at h
  obtain ⟨w, -, _, ⟨_, -, _, -, hfound⟩, row, hrow, t, ht, _, hcount, rfl⟩ := h
  obtain ⟨hid, hnew, hrole⟩ := relationshipRow_eq_some hrow
  have hup := operators_upsert p.relationships row
  rw [hp, hid, hnew] at hup
  rw [applySuccession] at ht
  split_ifs at ht with hs <;> cases ht
  · -- nothing is superseded: at most a first row of the operator appears
    rw [hup] at hcount ⊢
    split_ifs at hcount ⊢ with hheld hop
    · exact .inl rfl
    · have hids := eq_nil_of_countP_concat (hcount (hrole.mp hop))
      exact .inr ⟨w.id, by simp [hids, succession]⟩
    · simp
  · rw [operators_supersede, hup] at hcount ⊢
    obtain ⟨old, hold, holdid, holdrole⟩ := supersedesFound_eq_ok hfound hs
    by_cases hop : row.counterpartRole = .operator
    · have hone := hcount (hrole.mp hop)
      split_ifs at hone ⊢ with hheld
      · -- a row that is there succeeds no other: then none would be the last
        rcases eq_or_ne ids.getLast? (some w.supersedes) with hlast | hlast
        · obtain ⟨l, rfl⟩ := getLast?_eq_some_iff.mp hlast
          rw [countP_isLast_succeed] at hone
          cases hone
        · exact .inl (succeed_succession_of_ne hlast)
      · have hne : w.id ≠ w.supersedes :=
          fun h => hheld (Table.holds_iff.mpr ⟨old, hold, holdid.trans h.symm⟩)
        have hrow : succeed w.supersedes w.id (w.id, none) = (w.id, none) := by simp [succeed, hne]
        rw [map_append, map_singleton, hrow] at hone ⊢
        rcases eq_or_ne ids.getLast? (some w.supersedes) with hlast | hlast
        · obtain ⟨l, rfl⟩ := getLast?_eq_some_iff.mp hlast
          rw [succeed_succession_concat]
          exact .inr ⟨w.id, by simp⟩
        · rw [succeed_succession_of_ne hlast] at hone
          have hids := eq_nil_of_countP_concat hone
          exact .inr ⟨w.id, by simp [hids, succession]⟩
    · -- another role supersedes no row of the operator
      have hlast : ids.getLast? ≠ some w.supersedes := fun hlast => by
        obtain ⟨l, rfl⟩ := getLast?_eq_some_iff.mp hlast
        obtain ⟨r, hr, hrop, hrid⟩ := mem_operators.mp (hp ▸ last_mem_succession l w.supersedes)
        obtain rfl := Table.eq_of_key_eq hr hold ((congrArg Prod.fst hrid).trans holdid.symm)
        exact hop (hrole.mpr (holdrole hrop))
      rw [if_neg hop, append_nil, ite_self]
      exact .inl (succeed_succession_of_ne hlast)

/-! ### Runs -/

def materializeRelationships (events : List Event) (p : Projection) : Except Refusal Projection :=
  events.foldlM (fun p evt => materializeRelationshipLocked evt p) p

theorem materializeRelationships_line {events : List Event}
    (hp : operators p.relationships = succession ids) (h : materializeRelationships events p = .ok q) :
    ∃ more, operators q.relationships = succession (ids ++ more) := by
  refine foldlM_ok_invariant (P := fun q => ∃ more, operators q.relationships = succession (ids ++ more))
    h ⟨[], by simpa using hp⟩ ?_
  rintro p evt q - ⟨more, hp⟩ hq
  rcases materializeRelationshipLocked_line hp hq with h | ⟨id, h⟩
  · exact ⟨more, h⟩
  · exact ⟨more ++ [id], by rw [h, append_assoc]⟩

/-- Following `superseded_by` from one row ends at another. -/
inductive EndsAt (t : Table Relationship.id) : Relationship → Relationship → Prop
  | here {r : Relationship} : r.supersededBy = none → EndsAt t r r
  | next {r s c : Relationship} : r.supersededBy = some s.id → s ∈ t.rows → EndsAt t s c → EndsAt t r c

theorem endsAt_of_succession (hline : ∀ x ∈ succession ids, x ∈ operators t)
    (hr : r ∈ t.rows) (hrid : (r.id, r.supersededBy) ∈ succession ids) :
    ∃ c ∈ t.rows, c.currentOperator ∧ EndsAt t r c := by
  induction ids generalizing r with
  | nil => cases hrid
  | cons a ids ih =>
    rw [succession, forall_mem_cons] at hline
    rcases mem_cons.mp hrid with hrid | hrid
    · obtain ⟨rfl, hnext⟩ := Prod.mk.inj hrid
      cases ids with
      | nil =>
        obtain ⟨s, hs, hop, hsr⟩ := mem_operators.mp hline.1
        obtain rfl := Table.eq_of_key_eq hs hr (congrArg Prod.fst hsr)
        exact ⟨s, hs, by simpa [Relationship.currentOperator, hop] using hnext, .here hnext⟩
      | cons b l =>
        obtain ⟨s, hs, -, hsb⟩ := mem_operators.mp (hline.2 (b, l.head?) (mem_cons_self ..))
        obtain ⟨c, hc, hcur, hends⟩ := ih hline.2 hs (hsb ▸ mem_cons_self ..)
        refine ⟨c, hc, hcur, .next (hnext.trans ?_) hs hends⟩
        rw [head?_cons, (Prod.mk.inj hsb).1]
    · exact ih hline.2 hr hrid

/-- At most one row is the operator's current one, and every row of the operator leads
to it. -/
structure OneOperator (t : Table Relationship.id) : Prop where
  atMostOne : operatorCount t ≤ 1
  endsAtCurrent : ∀ r ∈ t.rows, r.counterpartRole = .operator →
    ∃ c ∈ t.rows, c.currentOperator ∧ EndsAt t r c

theorem oneOperator_of_line (h : operators t = succession ids) : OneOperator t where
  atMostOne := by
    rw [operatorCount_eq, h]
    by_cases hids : ids = []
    · simp [hids, succession]
    · rw [countP_isLast_succession hids]
  endsAtCurrent r hr hop :=
    endsAt_of_succession (fun _ hx => h ▸ hx) hr (h ▸ mem_operators.mpr ⟨r, hr, hop, rfl⟩)

/-- After any accepted events there is at most one current operator, every row of the
operator leads to it, and where there is one there is exactly one from then on. -/
theorem operator_rows_form_one_line {events : List Event} {p : Projection}
    (h : materializeRelationships events .empty = .ok p) :
    OneOperator p.relationships ∧ ∀ later q, materializeRelationships later p = .ok q →
      0 < operatorCount p.relationships → operatorCount q.relationships = 1 := by
  have hempty : operators Projection.empty.relationships = succession [] := rfl
  obtain ⟨ids, hp⟩ := materializeRelationships_line hempty h
  refine ⟨oneOperator_of_line hp, fun later q hq hpos => ?_⟩
  obtain ⟨more, hline⟩ := materializeRelationships_line hp hq
  have hids : ids ≠ [] := fun hids => by
    rw [operatorCount_eq, hp, hids] at hpos
    cases hpos
  rw [operatorCount_eq, hline, countP_isLast_succession (by simp [hids])]

def approved (payload : String) : String :=
  "\x7b\"operator_approval_excerpt\":\"y\",\"operator_approval_turn\":1," ++
    "\"approval_basis\":\"conversation_turn\"," ++ payload ++ "\x7d"

def handedOver : List Event :=
  [approved "\"id\":\"a\"", approved "\"id\":\"b\",\"supersedes\":\"a\""].map fun payload =>
    ⟨1, [], [], bytesOf "relationship.upsert", 1, [], bytesOf payload, [], false, false, .none⟩

theorem handedOver_one_line : ∃ p, materializeRelationships handedOver .empty = .ok p ∧
    OneOperator p.relationships ∧ p.relationships.rows.length = 2 := by
  have hrun : (materializeRelationships handedOver .empty).map (·.relationships.rows.length) = .ok 2 := by
    decide +kernel
  obtain ⟨p, h, hrows⟩ := map_eq_ok.mp hrun
  exact ⟨p, h, (operator_rows_form_one_line h).1, hrows⟩

end AiiOs.Store
