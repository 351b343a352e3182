import AiiOs.Lib.Procs
import AiiOs.PluginFacility.Executor
import Mathlib.Data.List.Nodup
import Mathlib.Data.List.TakeDrop

/-! internal/pluginfacility, custody.go: one lease, whose resources are held and given back
by several goroutines. A step is a region under the lease's lock or the call of one release
function. -/

namespace AiiOs.PluginFacility.Custodian
open Lib List

/-- A resource; `function` says whether it has a release function. -/
structure Held where
  id : Nat
  name : List Char
  function : Bool
  deriving DecidableEq, Repr

structure Call where
  id : Nat
  ok : Bool
  later : List Held
  deriving DecidableEq, Repr

/-- The variables of `release`: how many of the snapshot are left, and whether the last one
of these has failed. -/
structure Release where
  snapshot : List Held
  left : Nat
  failed : Bool
  deriving DecidableEq, Repr

/-- A lease. `releasing` is the one who has the lock of that name; `taken` is all it was
ever given to hold, and `next` numbers the calls of `Hold`. -/
structure Lease where
  held : List Held
  released : Bool
  sealed : Bool
  releasing : Option Release
  next : Nat
  taken : List Held
  calls : List Call
  deriving DecidableEq, Repr

namespace Lease

def new : Lease := ⟨[], false, false, none, 0, [], []⟩

/-- `Holds`. -/
def holds (l : Lease) : List (List Char) := l.held.map Held.name

/-- `releaseHeld`; without a function nothing is called. -/
def releaseHeld (h : Held) (ok : Bool) (later : List Held) (l : Lease) : Lease :=
  if h.function then { l with calls := l.calls ++ [⟨h.id, ok, later⟩] } else l

/-- A sealed lease gives the resource back at once; `ok` is what comes of that. -/
def hold (name : List Char) (function ok : Bool) (l : Lease) : Lease :=
  let h : Held := ⟨l.next, name, function⟩
  if l.sealed then { l.releaseHeld h ok [] with next := l.next + 1 }
  else { l with held := l.held ++ [h], taken := l.taken ++ [h], next := l.next + 1 }

/-- `Seal`. -/
def trySeal (l : Lease) : Lease × Bool := if l.sealed then (l, true)
  else if !l.released || l.held ≠ [] then (l, false)
  else ({ l with sealed := true }, true)

/-- `release` up to its loop. -/
def beginRelease (l : Lease) : Lease :=
  { l with released := true, releasing := some ⟨l.held, l.held.length, false⟩ }

def releaseNext (ok : Bool) (l : Lease) : Lease := match l.releasing with
  | none => l
  | some r =>
    match r.failed, r.snapshot[r.left - 1]? with
    | false, some h =>
      if r.left = 0 then l
      else { l.releaseHeld h ok (r.snapshot.drop r.left) with
        releasing := some (if h.function && !ok then { r with failed := true }
          else { r with left := r.left - 1 }) }
    | _, _ => l

/-- `release` behind its loop: what was not given back, and what has come since. -/
def endRelease (l : Lease) : Lease := match l.releasing with
  | none => l
  | some r =>
    if r.failed ∨ r.left = 0 then
      { l with
        held := (if r.failed then r.snapshot.take r.left else []) ++ l.held.drop r.snapshot.length
        releasing := none }
    else l

end Lease

/-- What the goroutines do; `TryReleaseContext` that finds the lock taken does nothing. -/
inductive Step : Lease → Lease → Prop
  | hold {l} (name : List Char) (function ok : Bool) : Step l (l.hold name function ok)
  | trySeal {l} : Step l l.trySeal.1
  | beginRelease {l} : l.releasing = none → Step l l.beginRelease
  | releaseNext {l} (ok : Bool) : Step l (l.releaseNext ok)
  | endRelease {l} : Step l l.endRelease

abbrev Steps := Relation.ReflTransGen Step

/-! ### What is kept -/

/-- The function has not succeeded before, and those behind it in the snapshot have. -/
def Allowed (before : List Call) (c : Call) : Prop :=
  (∀ c' ∈ before, c'.id = c.id → c'.ok = false) ∧
    ∀ h ∈ c.later, h.function → ∃ c' ∈ before, c'.id = h.id ∧ c'.ok

def Succeeded (calls : List Call) (i : Nat) : Prop := ∃ c ∈ calls, c.id = i ∧ c.ok

def Lease.dealt (l : Lease) : List Held := l.releasing.elim [] fun r => r.snapshot.drop r.left

structure Underway (l : Lease) (r : Release) : Prop where
  snapshot : ∃ late, l.held = r.snapshot ++ late
  left : r.left ≤ r.snapshot.length
  failed : r.failed → 0 < r.left
  succeeded : ∀ h ∈ r.snapshot.drop r.left, h.function → Succeeded l.calls h.id

structure Kept (l : Lease) : Prop where
  calls_lt : ∀ c ∈ l.calls, c.id < l.next
  taken_lt : ∀ h ∈ l.taken, h.id < l.next
  taken : ∀ h ∈ l.held, h ∈ l.taken
  ids : (l.held.map Held.id).Nodup
  each : Each Allowed l.calls
  waiting : ∀ h ∈ l.held, h ∉ l.dealt → ¬Succeeded l.calls h.id
  listed : ∀ h ∈ l.taken, h.function → ¬Succeeded l.calls h.id → h ∈ l.held
  sealed : l.sealed → l.held = []
  underway : ∀ r, l.releasing = some r → Underway l r

section
variable {l l' : Lease} {h h' : Held} {calls : List Call} {c : Call} {i : Nat}

theorem succeeded_concat : Succeeded (calls ++ [c]) i ↔ Succeeded calls i ∨ (c.id = i ∧ c.ok) := by
  simp [Succeeded]

theorem still_eq {r : Release} (hover : r.failed ∨ r.left = 0) :
    (if r.failed then r.snapshot.take r.left else []) = r.snapshot.take r.left := by
  split_ifs with hfailed
  · rfl
  · rw [hover.resolve_left hfailed, take_zero]

theorem kept_new : Kept .new := ⟨nofun, nofun, nofun, nodup_nil, each_nil, nofun, nofun, fun _ => rfl, nofun⟩

/-- The resource that the release under way deals with next. -/
structure IsNext (l : Lease) (r : Release) (h : Held) : Prop where
  releasing : l.releasing = some r
  failed : r.failed = false
  left : r.left ≠ 0
  get : r.snapshot[r.left - 1]? = some h

section
variable {r : Release} (hn : IsNext l r h)
include hn

theorem IsNext.dealt : l.dealt = r.snapshot.drop r.left := by
  rw [Lease.dealt, hn.releasing]
  rfl

theorem IsNext.drop_eq : r.snapshot.drop (r.left - 1) = h :: r.snapshot.drop r.left := by
  obtain ⟨hlt, hget⟩ := List.getElem?_eq_some_iff.mp hn.get
  rw [drop_eq_getElem_cons hlt, hget, Nat.sub_add_cancel (Nat.pos_of_ne_zero hn.left)]

variable (hk : Kept l)
include hk

theorem IsNext.mem : h ∈ l.held := by
  obtain ⟨late, hlate⟩ := (hk.underway r hn.releasing).snapshot
  rw [hlate]
  exact mem_append_left _ (mem_of_getElem? hn.get)

theorem IsNext.waiting : ¬Succeeded l.calls h.id := by
  refine hk.waiting h (hn.mem hk) ?_
  obtain ⟨late, hlate⟩ := (hk.underway r hn.releasing).snapshot
  have hnodup := hk.ids.of_map
  rw [hlate] at hnodup
  have hbelow := (Nodup.of_append_left hnodup).sublist (drop_sublist (r.left - 1) _)
  rw [hn.drop_eq, nodup_cons] at hbelow
  rw [hn.dealt]
  exact hbelow.1

/-- The release goes on below it. -/
theorem IsNext.below (hheld : l'.held = l.held) (hcalls : ∀ i, Succeeded l.calls i → Succeeded l'.calls i)
    (hown : h.function → Succeeded l'.calls h.id) : Underway l' { r with left := r.left - 1 } := by
  have hu := hk.underway r hn.releasing
  refine ⟨hheld ▸ hu.snapshot, le_trans (Nat.sub_le ..) hu.left, fun hft => by simp [hn.failed] at hft, ?_⟩
  rw [hn.drop_eq]
  intro h' hh' hf'
  rcases mem_cons.mp hh' with rfl | hh'
  · exact hown hf'
  · exact hcalls _ (hu.succeeded h' hh' hf')

end

section
variable (hk : Kept l)
include hk

theorem Kept.hold (name : List Char) (function ok : Bool) : Kept (l.hold name function ok) := by
  unfold Lease.hold
  split_ifs with hs
  · have hempty := hk.sealed hs
    unfold Lease.releaseHeld
    cases function with
    | false =>
      exact { hk with
        calls_lt := fun c hc => Nat.lt_succ_of_lt (hk.calls_lt c hc)
        taken_lt := fun h hh => Nat.lt_succ_of_lt (hk.taken_lt h hh)
        underway := fun r hr => { hk.underway r hr with } }
    | true =>
      -- nobody was given this number before
      have hfresh : ∀ c ∈ l.calls, c.id ≠ l.next := fun c hc => ne_of_lt (hk.calls_lt c hc)
      refine { hk with
        calls_lt := ?_, taken_lt := ?_, each := ?_, waiting := ?_, listed := ?_, underway := ?_ }
      · intro c hc
        rcases mem_append.mp hc with hc | hc
        · exact Nat.lt_succ_of_lt (hk.calls_lt c hc)
        · rw [mem_singleton.mp hc]
          exact Nat.lt_succ_self _
      · exact fun h hh => Nat.lt_succ_of_lt (hk.taken_lt h hh)
      · exact hk.each.concat ⟨fun c hc heq => absurd heq (hfresh c hc), nofun⟩
      · intro h hh
        rw [show l.held = [] from hempty] at hh
        cases hh
      · exact fun h hh hf hn => hk.listed h hh hf fun hsucc => hn (succeeded_concat.mpr (.inl hsucc))
      · intro r hr
        have hu := hk.underway r hr
        exact { hu with succeeded := fun h hh hf => succeeded_concat.mpr (.inl (hu.succeeded h hh hf)) }
  · have hnew : ∀ h ∈ l.held, h.id ≠ l.next := fun h hh => ne_of_lt (hk.taken_lt h (hk.taken h hh))
    refine { hk with
      calls_lt := fun c hc => Nat.lt_succ_of_lt (hk.calls_lt c hc)
      taken_lt := ?_, taken := ?_, ids := ?_, waiting := ?_, listed := ?_, sealed :=
        fun h => absurd h hs, underway := ?_ }
    · intro h hh
      rcases mem_append.mp hh with hh | hh
      · exact Nat.lt_succ_of_lt (hk.taken_lt h hh)
      · rw [mem_singleton.mp hh]
        exact Nat.lt_succ_self _
    · intro h hh
      exact mem_append.mpr ((mem_append.mp hh).imp_left (hk.taken h))
    · rw [map_append]
      refine .append hk.ids (nodup_singleton _) ?_
      intro i hi hi'
      obtain ⟨h, hh, rfl⟩ := List.mem_map.mp hi
      exact hnew h hh (mem_singleton.mp hi')
    · intro h hh hd
      rcases mem_append.mp hh with hh | hh
      · exact hk.waiting h hh hd
      · rw [mem_singleton.mp hh]
        rintro ⟨c, hc, heq, -⟩
        exact ne_of_lt (hk.calls_lt c hc) heq
    · intro h hh hf hn
      exact mem_append.mpr ((mem_append.mp hh).imp_left fun hh => hk.listed h hh hf hn)
    · intro r hr
      have hu := hk.underway r hr
      obtain ⟨late, hlate⟩ := hu.snapshot
      exact { hu with snapshot := ⟨late ++ [⟨l.next, name, function⟩], by rw [← append_assoc, ← hlate]⟩ }

theorem Kept.trySeal : Kept l.trySeal.1 := by
  unfold Lease.trySeal
  split_ifs with h1 h2
  · exact hk
  · exact hk
  · have hempty : l.held = [] := by
      by_contra hne
      exact h2 (by simp [hne])
    exact { hk with sealed := fun _ => hempty, underway := fun r hr => { hk.underway r hr with } }

theorem Kept.beginRelease (hfree : l.releasing = none) : Kept l.beginRelease := by
  have hdealt : l.dealt = [] := by rw [Lease.dealt, hfree]; rfl
  refine { hk with waiting := ?_, underway := ?_ }
  · intro h hh _
    exact hk.waiting h hh (by rw [hdealt]; exact not_mem_nil)
  · rintro r ⟨⟩
    refine ⟨⟨[], (append_nil _).symm⟩, le_refl _, nofun, ?_⟩
    rw [drop_length]
    nofun

theorem Kept.releaseNext (ok : Bool) : Kept (l.releaseNext ok) := by
  unfold Lease.releaseNext
  cases hr : l.releasing with
  | none => exact hk
  | some r =>
    dsimp only
    split
    · rename_i h hfailed hget
      split
      · exact hk
      rename_i h0
      have hn : IsNext l r h := ⟨hr, hfailed, h0, hget⟩
      have hu := hk.underway r hr
      have hmem := hn.mem hk
      have hwait := hn.waiting hk
      unfold Lease.releaseHeld
      cases hf : h.function with
      | false =>
        refine { hk with waiting := fun h' hh' hd => hk.waiting h' hh' fun hd' => hd ?_, underway := ?_ }
        · change h' ∈ r.snapshot.drop (r.left - 1)
          rw [hn.drop_eq]
          rw [hn.dealt] at hd'
          exact mem_cons_of_mem _ hd'
        · rintro _ ⟨⟩
          exact hn.below hk rfl (fun _ hs => hs) fun hf' => by simp [hf] at hf'
      | true =>
        have heach : Each Allowed (l.calls ++ [⟨h.id, ok, r.snapshot.drop r.left⟩]) := by
          refine hk.each.concat ⟨fun c hc heq => ?_, hu.succeeded⟩
          cases hok : c.ok with
          | false => rfl
          | true => exact absurd ⟨c, hc, heq, hok⟩ hwait
        have hlt' : ∀ c ∈ l.calls ++ [⟨h.id, ok, r.snapshot.drop r.left⟩], c.id < l.next := by
          intro c hc
          rcases mem_append.mp hc with hc | hc
          · exact hk.calls_lt c hc
          · rw [mem_singleton.mp hc]
            exact hk.taken_lt h (hk.taken h hmem)
        have hlisted : ∀ h' ∈ l.taken, h'.function →
            ¬Succeeded (l.calls ++ [⟨h.id, ok, r.snapshot.drop r.left⟩]) h'.id → h' ∈ l.held :=
          fun h' hh' hf' hn => hk.listed h' hh' hf' fun hs => hn (succeeded_concat.mpr (.inl hs))
        cases ok with
        | true =>
          refine { hk with calls_lt := hlt', each := heach, waiting := ?_, listed := hlisted, underway := ?_ }
          · intro h' hh' hd hs
            change h' ∉ r.snapshot.drop (r.left - 1) at hd
            rw [hn.drop_eq, mem_cons, not_or] at hd
            rcases succeeded_concat.mp hs with hs | ⟨heq, -⟩
            · exact hk.waiting h' hh' (by rw [hn.dealt]; exact hd.2) hs
            · exact hd.1 (inj_on_of_nodup_map hk.ids hh' hmem heq.symm)
          · rintro _ ⟨⟩
            exact hn.below hk rfl (fun _ hs => succeeded_concat.mpr (.inl hs)) fun _ =>
              succeeded_concat.mpr (.inr ⟨rfl, rfl⟩)
        | false =>
          refine { hk with calls_lt := hlt', each := heach, waiting := ?_, listed := hlisted, underway := ?_ }
          · intro h' hh' hd hs
            rcases succeeded_concat.mp hs with hs | ⟨-, hok⟩
            · exact hk.waiting h' hh' (by rw [hn.dealt]; exact hd) hs
            · cases hok
          · rintro _ ⟨⟩
            refine ⟨hu.snapshot, hu.left, fun _ => Nat.pos_of_ne_zero h0, fun h' hh' hf' => ?_⟩
            exact succeeded_concat.mpr (.inl (hu.succeeded h' hh' hf'))
    · exact hk

theorem Kept.endRelease : Kept l.endRelease := by
  unfold Lease.endRelease
  cases hr : l.releasing with
  | none => exact hk
  | some r =>
    have hu := hk.underway r hr
    obtain ⟨late, hlate⟩ := hu.snapshot
    dsimp only
    split
    · rename_i hend
      have hheld : (if r.failed then r.snapshot.take r.left else []) ++ l.held.drop r.snapshot.length =
          r.snapshot.take r.left ++ late := by
        rw [still_eq hend, hlate, drop_left]
      have hsub : (r.snapshot.take r.left ++ late).Sublist l.held := by
        rw [hlate]
        exact (take_sublist ..).append (.refl _)
      -- what stays was not dealt with
      have hnot : ∀ h ∈ r.snapshot.take r.left ++ late, h ∉ l.dealt := by
        have hnodup := hk.ids.of_map
        rw [hlate, ← take_append_drop r.left r.snapshot, append_assoc] at hnodup
        obtain ⟨-, hnd, hdis⟩ := nodup_append'.mp hnodup
        rw [Lease.dealt, hr]
        intro h hh hd
        rcases mem_append.mp hh with hh | hh
        · exact hdis hh (mem_append_left _ hd)
        · exact (nodup_append'.mp hnd).2.2 hd hh
      rw [hheld]
      refine { hk with
        taken := fun h hh => hk.taken h (hsub.subset hh)
        ids := hk.ids.sublist (hsub.map _)
        waiting := fun h hh _ => hk.waiting h (hsub.subset hh) (hnot h hh)
        listed := ?_, sealed := ?_, underway := nofun }
      · intro h hh hf hn
        have hin := hk.listed h hh hf hn
        rw [hlate, ← take_append_drop r.left r.snapshot, append_assoc] at hin
        rcases mem_append.mp hin with hin | hin
        · exact mem_append_left _ hin
        · rcases mem_append.mp hin with hin | hin
          · exact absurd (hu.succeeded h hin hf) hn
          · exact mem_append_right _ hin
      · intro hs
        have hempty := hk.sealed hs
        exact sublist_nil.mp (hempty ▸ hsub)
    · exact hk

theorem Kept.step (hs : Step l l') : Kept l' := by
  cases hs with
  | hold name function ok => exact hk.hold name function ok
  | trySeal => exact hk.trySeal
  | beginRelease hfree => exact hk.beginRelease hfree
  | releaseNext ok => exact hk.releaseNext ok
  | endRelease => exact hk.endRelease

theorem Kept.steps (hs : Steps l l') : Kept l' := by
  induction hs with
  | refl => exact hk
  | tail _ hstep ih => exact ih.step hstep

end

theorem sealed_step (hs : Step l l') (h : l.sealed) : l'.sealed ∧ l'.taken = l.taken := by
  cases hs with
  | hold name function ok =>
    rw [Lease.hold]
    unfold Lease.releaseHeld
    split_ifs <;> exact ⟨h, rfl⟩
  | trySeal =>
    rw [Lease.trySeal, if_pos h]
    exact ⟨h, rfl⟩
  | beginRelease => exact ⟨h, rfl⟩
  | releaseNext ok =>
    unfold Lease.releaseNext Lease.releaseHeld
    split
    · exact ⟨h, rfl⟩
    · split
      · split_ifs <;> exact ⟨h, rfl⟩
      · exact ⟨h, rfl⟩
  | endRelease =>
    unfold Lease.endRelease
    split
    · exact ⟨h, rfl⟩
    · split_ifs <;> exact ⟨h, rfl⟩

theorem sealed_steps (hs : Steps l l') (h : l.sealed) : l'.sealed ∧ l'.taken = l.taken := by
  induction hs with
  | refl => exact ⟨h, rfl⟩
  | tail _ hstep ih =>
    obtain ⟨h1, h2⟩ := sealed_step hstep ih.1
    exact ⟨h1, h2.trans ih.2⟩

/-- No function is called again after it has succeeded nor before those behind it in the
snapshot have; what was taken and not given back is listed; and once `Seal` has said so,
nothing is held and nothing is taken any more. -/
theorem resources_given_back_once (hl : Steps .new l) : Each Allowed l.calls ∧
      (∀ h ∈ l.taken, h.function → ¬Succeeded l.calls h.id → h ∈ l.held ∧ h.name ∈ l.holds) ∧
      (l.trySeal.2 → ∀ l', Steps l.trySeal.1 l' → l'.held = [] ∧ l'.taken = l.taken ∧ l'.trySeal.2) := by
  have hk := kept_new.steps hl
  refine ⟨hk.each, fun h hh hf hn => ?_, fun hseal l' hl' => ?_⟩
  · have hin := hk.listed h hh hf hn
    exact ⟨hin, List.mem_map_of_mem hin⟩
  · have hs : l.trySeal.1.sealed ∧ l.trySeal.1.taken = l.taken := by
      unfold Lease.trySeal at hseal ⊢
      split_ifs at hseal ⊢ with h1 h2
      · exact ⟨h1, rfl⟩
      · exact ⟨rfl, rfl⟩
    obtain ⟨h1, h2⟩ := sealed_steps hl' hs.1
    exact ⟨(hk.trySeal.steps hl').sealed h1, h2.trans hs.2, by rw [Lease.trySeal, if_pos h1]⟩

end

/-- The lease as the executor sees it. -/
def Lease.custody (withdrawn : Bool) (l : Lease) : PluginFacility.Lease := ⟨l.holds, l.released, withdrawn⟩

/-- A release that is over, with nothing held beside it, is the executor's. -/
theorem custody_endRelease {l : Lease} {r : Release} (hr : l.releasing = some r)
    (hover : r.failed ∨ r.left = 0) (hbeside : l.held = r.snapshot) (withdrawn : Bool) :
    l.endRelease.custody withdrawn =
      { l.custody withdrawn with held := (l.custody withdrawn).held.take r.left } := by
  unfold Lease.endRelease
  rw [hr]
  dsimp only
  rw [if_pos hover, still_eq hover, hbeside, drop_length, append_nil]
  simp [Lease.custody, Lease.holds, hbeside]

theorem resources_given_back_once_failing :
    ∃ l, Steps .new l ∧
      (l.held.map Held.id = [0, 1] ∧ l.calls = [⟨2, true, []⟩, ⟨1, false, [⟨2, [], true⟩]⟩]) ∧
      Each Allowed l.calls := by
  have hrun : Steps .new
    ((((((Lease.new.hold [] true true).hold [] true true).hold [] true true).beginRelease.releaseNext
      true).releaseNext false).endRelease) :=
    ((((((Relation.ReflTransGen.single (.hold [] true true)).tail (.hold [] true true)).tail
      (.hold [] true true)).tail (.beginRelease rfl)).tail (.releaseNext true)).tail
        (.releaseNext false)).tail .endRelease
  exact ⟨_, hrun, by decide, (resources_given_back_once hrun).1⟩

end AiiOs.PluginFacility.Custodian
