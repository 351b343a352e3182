import AiiOs.Store.Retired

/-! The edge a belief.supersede leaves. It is written with `INSERT OR IGNORE` under an id
made of the event's number, so what is in its place already keeps it out. -/

namespace AiiOs.Store
open Lib Lib.Json AiiOs.Ledger

variable {h : Host} {p q : Projection} {evt : Event} {w : BeliefSupersedePayload}

/-- An edge says, and has not been archived, that the first belief supersedes the second. -/
def Supersedes (p : Projection) (newId oldId : Text) : Prop :=
  ∃ e ∈ p.edges.rows, e.fromId = newId ∧ e.toId = oldId ∧ e.edgeType = .supersedes ∧ e.archived = false

/-- The edge cannot be written: its link is there, or its id is. -/
def EdgeTaken (p : Projection) (seq : Nat) (newId oldId : Text) : Prop :=
  linked p.edges newId oldId .supersedes ∨ p.edges.Holds ("edge_".toList ++ decimal seq)

theorem insertEdge?_eq_none {edges : Table Edge.id} {e : Edge} :
    insertEdge? edges e = none ↔ linked edges e.fromId e.toId e.edgeType ∨ edges.Holds e.id := by
  rw [insertEdge?]
  split_ifs with hlinked
  · exact iff_of_true rfl (.inl hlinked)
  · rw [or_iff_right hlinked, Table.insert?]
    split_ifs with hheld
    · exact iff_of_true rfl hheld
    · exact iff_of_false not_false hheld

theorem materializeBeliefSupersede_supersedes (hq : materializeBeliefSupersede evt p = .ok q)
    (hw : readBeliefSupersede evt.payload = some w) :
    Supersedes q w.newId w.oldId ↔ Supersedes p w.newId w.oldId ∨ ¬ EdgeTaken p evt.seq w.newId w.oldId := by
  simp only [materializeBeliefSupersede, bind_eq_ok, pure_eq_ok, orRefuse_eq_ok] at hq
  obtain ⟨w', hw', _, -, _, -, rfl⟩ := hq
  cases hw.symm.trans hw'
  cases hins : insertEdge? p.edges _ with
  | none =>
    have htaken : EdgeTaken p evt.seq w.newId w.oldId := insertEdge?_eq_none.mp hins
    exact (or_iff_left (not_not_intro htaken)).symm
  | some edges =>
    have hfree : ¬ EdgeTaken p evt.seq w.newId w.oldId := by
      intro htaken
      rw [insertEdge?_eq_none.mpr (by exact htaken)] at hins
      cases hins
    obtain ⟨hnew, rfl⟩ := insertEdge?_eq_some hins
    exact iff_of_true ⟨_, (Table.mem_push hnew).mpr (.inr rfl), rfl, rfl, rfl, rfl⟩ (.inr hfree)

/-- After any history, a supersede that is admitted and applied leaves its edge exactly
when the edge was there before, or neither its link nor its id was taken. -/
theorem supersede_leaves_edge_iff (h : Host) (history : List Arrival) (a : Arrival) (p q : Projection)
    (w : BeliefSupersedePayload) (hp : accepted h history = .ok p)
    (htype : EventType.ofBytes? a.event.type = some .beliefSupersede)
    (hw : readBeliefSupersede a.event.payload = some w) (hq : accepted h (history ++ [a]) = .ok q) :
    Supersedes q w.newId w.oldId ↔
      Supersedes p w.newId w.oldId ∨ ¬ EdgeTaken p a.event.seq w.newId w.oldId := by
  obtain ⟨p', hp', hq⟩ := accepted_concat.mp hq
  cases hp.symm.trans hp'
  obtain ⟨type, ledger, htype', hq⟩ := materializeLocked_eq_ok (accept_eq_ok hq).2
  cases htype.symm.trans htype'
  have hiff := materializeBeliefSupersede_supersedes hq hw
  exact hiff

def twoBeliefs : List Arrival :=
  [experienceArrival 1 "e" "x", beliefArrival 2 "\"id\":\"a\",\"statement\":\"s\"",
    beliefArrival 3 "\"id\":\"b\",\"statement\":\"t\""]

def supersedeArrival (seq : Nat) : Arrival :=
  plainArrival seq "belief.supersede" "\x7b\"old_id\":\"a\",\"new_id\":\"b\"\x7d"

theorem supersede_leaves_edge_iff_free : ∃ p q, accepted plainHost twoBeliefs = .ok p ∧
      accepted plainHost (twoBeliefs ++ [supersedeArrival 4]) = .ok q ∧
      Supersedes q "b".toList "a".toList := by
  obtain ⟨p, hp, hbefore⟩ : ∃ p, accepted plainHost twoBeliefs = .ok p ∧
      ∀ e ∈ p.edges.rows, e.edgeType ≠ .supersedes ∧ e.id ≠ "edge_4".toList := exists_ok (by decide +kernel)
  obtain ⟨q, hq, -⟩ := exists_ok (c := fun _ => True)
    (show (accepted plainHost (twoBeliefs ++ [supersedeArrival 4])).toOption.any _ by decide +kernel)
  have hiff := supersede_leaves_edge_iff plainHost twoBeliefs (supersedeArrival 4) p q
    ⟨"a".toList, "b".toList, []⟩ hp (by decide +kernel) rfl hq
  refine ⟨p, q, hp, hq, hiff.mpr (.inr ?_)⟩
  rintro (⟨e, he, -, -, htype⟩ | hheld)
  · exact (hbefore e he).1 htype
  · obtain ⟨e, he, hid⟩ := List.mem_map.mp hheld
    exact (hbefore e he).2 hid

/-- An edge under the id that the next event's edge will want. -/
def edgeIdTaken : List Arrival := twoBeliefs ++ [plainArrival 4 "edge.create"
    "\x7b\"id\":\"edge_5\",\"from_id\":\"e\",\"to_id\":\"a\",\"edge_type\":\"SUPPORTS\"\x7d"]

theorem supersede_leaves_no_edge :
    ∃ q, accepted plainHost (edgeIdTaken ++ [supersedeArrival 5]) = .ok q ∧
      q.beliefs.rows.map (fun b => (b.id, b.supersededBy)) =
        [("a".toList, some "b".toList), ("b".toList, none)] ∧
      ¬ Supersedes q "b".toList "a".toList := by
  obtain ⟨q, hq, hrows, hedges⟩ : ∃ q, accepted plainHost (edgeIdTaken ++ [supersedeArrival 5]) = .ok q ∧
      q.beliefs.rows.map (fun b => (b.id, b.supersededBy)) =
        [("a".toList, some "b".toList), ("b".toList, none)] ∧
      ∀ e ∈ q.edges.rows, e.edgeType ≠ .supersedes := exists_ok (by decide +kernel)
  refine ⟨q, hq, hrows, ?_⟩
  rintro ⟨e, he, -, -, htype, -⟩
  exact hedges e he htype

end AiiOs.Store
