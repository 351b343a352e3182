import AiiOs.Updates.Settled

/-! internal/updates, `refusedHere`: the release that was rolled back is refused where it
failed. The note is written after the old program is back, and the boot after one that was
stopped in between takes the update for one that was never published. -/

namespace AiiOs.Updates
open Lib Prog List

def refusedHere (available : Name) (d : Install) : Option (Name × Hash) × Install :=
  match d.failed with
  | none => (none, d)
  | some f => if f.1 ≠ [] ∧ f.1 = available then (some f, d) else (none, { d with failed := none })

/-- What happens after the release is published: boots, each of which notes the release if
it puts the old program back, and offers of the same release. -/
inductive Goes (host : Host) (owner : Name) (rel : Release) (d₀ : Install) (s : Life) : Life → Prop
  | boot {t : Life} : Boot host owner rel s t →
      (s.disk.program = rel.newBinary → t.disk.program = d₀.program → t.disk.failed ≠ s.disk.failed) →
      Goes host owner rel d₀ s t
  | offered : Goes host owner rel d₀ s { s with disk := (refusedHere rel.version s.disk).2 }

section
variable {host : Host} {owner : Name} {rel : Release} {d₀ d : Install} {s t : Life}

/-- Where the update stands as long as every rollback was noted. -/
inductive Remembers (host : Host) (owner : Name) (rel : Release) (d₀ : Install) (d : Install) : Prop
  | pending {a : Nat} : a ≤ 1 → Pending host owner rel d₀ a d → Remembers host owner rel d₀ d
  | noted : RolledBack host owner rel d₀ d ∧ Noted host rel d.failed → Remembers host owner rel d₀ d
  | healthy : Healthy rel d → Remembers host owner rel d₀ d

theorem refusedHere_noted (hversion : rel.version ≠ []) (h : Noted host rel d.failed) :
    refusedHere rel.version d = (some (rel.version, host.sha256hex rel.newBinary), d) := by
  rw [refusedHere, h hversion]
  exact if_pos ⟨hversion, rfl⟩

theorem Remembers.offered (hversion : rel.version ≠ []) (h : Remembers host owner rel d₀ d) :
    Remembers host owner rel d₀ (refusedHere rel.version d).2 := by
  have hother : (refusedHere rel.version d).2 = d ∨ (refusedHere rel.version d).2 =
      { d with failed := none } := by
    rw [refusedHere]
    cases d.failed with
    | none => exact .inl rfl
    | some f =>
      dsimp only
      split_ifs
      · exact .inl rfl
      · exact .inr rfl
  cases h with
  | pending ha h =>
    rcases hother with ho | ho <;> rw [ho]
    · exact .pending ha h
    · exact .pending ha ⟨h.program, h.record, h.backup, h.marker, h.beside, h.besideBackup⟩
  | noted h =>
    rw [refusedHere_noted hversion h.2]
    exact .noted h
  | healthy h =>
    rcases hother with ho | ho <;> rw [ho]
    · exact .healthy h
    · exact .healthy ⟨h.program, h.marker⟩

theorem Pending.remembers {a : Nat} (ha : a ≤ 1) (h : Pending host owner rel d₀ a s.disk)
    (hb : Boot host owner rel s t)
    (hnoted : s.disk.program = rel.newBinary → t.disk.program = d₀.program → t.disk.failed ≠ s.disk.failed) :
    Remembers host owner rel d₀ t.disk := by
  have hwp := h.checkRollback_wp ha (E := fun _ _ => True)
  cases hb with
  | died hv =>
    rcases wp_visits hwp hv with ⟨b, -, hb, hd⟩ | ⟨hd, hfailed⟩
    · exact .pending hb hd
    · exact .noted ⟨hd, hfailed.resolve_left (hnoted h.program hd.program)⟩
  | checked he =>
    have hend := (wp_ends hwp he).1 _ rfl
    split at hend
    · exact .pending le_rfl hend
    · exact .noted hend.2
  | marked he hv =>
    have hend := (wp_ends hwp he).1 _ rfl
    split at hend
    · exact .healthy (wp_visits (healthy_writeBootMarker_keeps hend.program) hv)
    · cases hend.1

theorem Remembers.goes (hready : Ready host rel d₀) (hversion : rel.version ≠ [])
    (h : Remembers host owner rel d₀ s.disk) (hg : Goes host owner rel d₀ s t) :
    Remembers host owner rel d₀ t.disk := by
  cases hg with
  | offered => exact h.offered hversion
  | boot hb hnoted =>
    cases h with
    | pending ha h => exact h.remembers ha hb hnoted
    | noted h => exact .noted ((rolledBack_settling.failed (Noted host rel)).boot hb hready h)
    | healthy h => exact .healthy (h.boot hb)

/-- A release that was published and then rolled back is refused from then on, over any
boots and offers of it, unless a boot was stopped between the old program and the note. -/
theorem rolled_back_release_refused (hready : Ready host rel d₀) (hversion : rel.version ≠ [])
    (hswap : Prog.Visits (swapBinary host owner rel) d₀ d) (hnew : d.program = rel.newBinary)
    (hs : Relation.ReflTransGen (Goes host owner rel d₀) ⟨d, 0, false⟩ s)
    (hold : s.disk.program = d₀.program) :
    refusedHere rel.version s.disk = (some (rel.version, host.sha256hex rel.newBinary), s.disk) := by
  have hother : ∀ {d : Install}, d.program = rel.newBinary → d.program ≠ d₀.program := fun h h' =>
    hready.other (by rw [← h', h])
  have hstart : Remembers host owner rel d₀ d := by
    rcases wp_visits (swapBinary_keeps hready) hswap with h | h
    · exact absurd h.program (hother hnew)
    · exact .pending (Nat.zero_le 1) h
  have hend : Remembers host owner rel d₀ s.disk := by
    clear hold
    induction hs with
    | refl => exact hstart
    | tail _ hg ih => exact ih.goes hready hversion hg
  cases hend with
  | pending _ h => exact absurd hold (hother h.program)
  | noted h => exact refusedHere_noted hversion h.2
  | healthy h => exact absurd hold (hother h.program)

end

/-- The release of the install above is published, two boots of it die in the check, and
it is offered again. -/
theorem besideRelease_refused : ∃ d s,
    Prog.Visits (swapBinary plainHost (charsOf "/data") besideRelease) besideInstall d ∧ d.program = [2] ∧
      Relation.ReflTransGen (Goes plainHost (charsOf "/data") besideRelease besideInstall) ⟨d, 0, false⟩ s ∧
      s.disk.program = [1] ∧
      refusedHere besideRelease.version s.disk =
        (some (besideRelease.version, plainHost.sha256hex [2]), s.disk) := by
  let check := checkRollback plainHost (charsOf "/data")
  have hrun : ((swapBinary plainHost (charsOf "/data") besideRelease).exec (replicate 12 .durable)
      besideInstall).1.any fun d => d.program == [2] && (check.exec [] d).1.any fun x =>
        x.program == [2] && (check.exec [] x).1.any fun y =>
          y.program == [1] && x.failed.isNone && y.failed.isSome := by
    decide +kernel
  obtain ⟨d, hd, hb⟩ := any_eq_true.mp hrun
  rw [Bool.and_eq_true, beq_iff_eq] at hb
  obtain ⟨hnew, hb⟩ := hb
  obtain ⟨x, hx, hb⟩ := any_eq_true.mp hb
  rw [Bool.and_eq_true, beq_iff_eq] at hb
  obtain ⟨hxnew, hb⟩ := hb
  obtain ⟨y, hy, hb⟩ := any_eq_true.mp hb
  simp only [Bool.and_eq_true, beq_iff_eq, Option.isNone_iff_eq_none] at hb
  obtain ⟨⟨hold, hnone⟩, hsome⟩ := hb
  have hs : Relation.ReflTransGen (Goes plainHost (charsOf "/data") besideRelease besideInstall) ⟨d, 0, false⟩
      ⟨y, 0, false⟩ := by
    refine .tail (.single (.boot (.died (visits_of_exec hx)) fun _ h => ?_))
      (.boot (.died (visits_of_exec hy)) fun _ _ h => ?_)
    · exact absurd (hxnew.symm.trans h) (by decide)
    · rw [h, hnone] at hsome
      cases hsome
  exact ⟨d, ⟨y, 0, false⟩, visits_of_exec hd, hnew, hs, hold,
    rolled_back_release_refused ⟨rfl, by decide⟩ (by decide) (visits_of_exec hd) hnew hs hold⟩

/-- The second boot dies with the old program back and the release not noted; after the
third nothing is left that would refuse it. -/
theorem besideRelease_offered_again : ∃ d s,
    Prog.Visits (swapBinary plainHost (charsOf "/data") besideRelease) besideInstall d ∧ d.program = [2] ∧
      Relation.ReflTransGen (Boot plainHost (charsOf "/data") besideRelease) ⟨d, 0, false⟩ s ∧
      s.disk.program = [1] ∧ s.disk.record = none ∧ (refusedHere besideRelease.version s.disk).1 = none := by
  let check := checkRollback plainHost (charsOf "/data")
  have hrun : ((swapBinary plainHost (charsOf "/data") besideRelease).exec (replicate 12 .durable)
      besideInstall).1.any fun d => d.program == [2] && (check.exec [] d).1.any fun x =>
        (check.exec [] x).1.any fun y => (check.exec [] y).1.any fun z =>
          z.program == [1] && z.record.isNone && (refusedHere besideRelease.version z).1.isNone := by
    decide +kernel
  obtain ⟨d, hd, hb⟩ := any_eq_true.mp hrun
  rw [Bool.and_eq_true, beq_iff_eq] at hb
  obtain ⟨hnew, hb⟩ := hb
  obtain ⟨x, hx, hb⟩ := any_eq_true.mp hb
  obtain ⟨y, hy, hb⟩ := any_eq_true.mp hb
  obtain ⟨z, hz, hb⟩ := any_eq_true.mp hb
  simp only [Bool.and_eq_true, beq_iff_eq, Option.isNone_iff_eq_none] at hb
  obtain ⟨⟨hold, hrecord⟩, hoffered⟩ := hb
  exact ⟨d, ⟨z, 0, false⟩, visits_of_exec hd, hnew,
    .tail (.tail (.single (.died (visits_of_exec hx))) (.died (visits_of_exec hy)))
      (.died (visits_of_exec hz)), hold, hrecord, hoffered⟩

end AiiOs.Updates
