import Mathlib.Algebra.Ring.Int.Defs
import Mathlib.Algebra.Ring.Nat
import Mathlib.Data.List.Nodup

/-! Tables with a primary key: the rows in the order they were written, no two under
one key. The statements are those of SQL, each with the rows it leaves. -/

namespace Lib
open List

@[ext]
structure Table {κ ρ : Type} (key : ρ → κ) where
  rows : List ρ
  nodup : (rows.map key).Nodup

namespace Table
variable {κ ρ : Type} {key : ρ → κ}

def empty : Table key := ⟨[], List.nodup_nil⟩

def Holds (t : Table key) (k : κ) : Prop := k ∈ t.rows.map key

variable {t : Table key} {k : κ} {a r : ρ} {f : ρ → ρ} {p : ρ → Bool}

theorem holds_iff : t.Holds k ↔ ∃ r ∈ t.rows, key r = k := List.mem_map

theorem not_holds_empty (k : κ) : ¬ (empty : Table key).Holds k := by simp [Holds, empty]

theorem holds_of_mem (h : r ∈ t.rows) : t.Holds (key r) := List.mem_map_of_mem h

theorem eq_of_key_eq {b : ρ} (ha : a ∈ t.rows) (hb : b ∈ t.rows) (h : key a = key b) :
    a = b := inj_on_of_nodup_map t.nodup ha hb h

/-- `INSERT` of a row whose key is free. -/
def push (t : Table key) (r : ρ) (h : ¬ t.Holds (key r)) : Table key where
  rows := t.rows ++ [r]
  nodup := by
    rw [List.map_append, List.nodup_append']
    exact ⟨t.nodup, List.nodup_singleton _, by simpa [List.Disjoint, Holds] using h⟩

@[simp] theorem mem_push (h : ¬ t.Holds (key r)) : a ∈ (t.push r h).rows ↔ a ∈ t.rows ∨ a = r := by
  simp [push]

@[simp] theorem holds_push (h : ¬ t.Holds (key r)) : (t.push r h).Holds k ↔ t.Holds k ∨ k = key r := by
  simp [Holds, push]

theorem key_ite (hf : ∀ r, key (f r) = key r) (p : ρ → Bool) :
    (key ∘ fun r => if p r then f r else r) = key := by
  funext r
  rw [Function.comp_apply]
  split_ifs
  · exact hf r
  · rfl

/-- `UPDATE … WHERE p`; the key is not among the columns set. -/
def update (t : Table key) (p : ρ → Bool) (f : ρ → ρ) (hf : ∀ r, key (f r) = key r) : Table key where
  rows := t.rows.map fun r => if p r then f r else r
  nodup := by
    rw [List.map_map, key_ite hf]
    exact t.nodup

theorem mem_update (hf : ∀ r, key (f r) = key r) :
    a ∈ (t.update p f hf).rows ↔ ∃ r ∈ t.rows, (if p r then f r else r) = a := List.mem_map

@[simp] theorem holds_update (hf : ∀ r, key (f r) = key r) : (t.update p f hf).Holds k ↔ t.Holds k := by
  rw [Holds, update, List.map_map, key_ite hf]
  rfl

/-- `DELETE … WHERE NOT p`. -/
def keep (t : Table key) (p : ρ → Bool) : Table key where
  rows := t.rows.filter p
  nodup := t.nodup.sublist (List.filter_sublist.map key)

variable [DecidableEq κ]

instance (t : Table key) (k : κ) : Decidable (t.Holds k) := inferInstanceAs (Decidable (_ ∈ _))

def find? (t : Table key) (k : κ) : Option ρ := t.rows.find? fun r => key r = k

/-- `DELETE` of the row under a key. -/
def delete (t : Table key) (k : κ) : Table key where
  rows := t.rows.filter fun r => key r ≠ k
  nodup := t.nodup.sublist (List.filter_sublist.map key)

theorem not_holds_delete (t : Table key) (k : κ) : ¬ (t.delete k).Holds k := by
  simp [Holds, delete]

/-- `INSERT`, refused where the key is taken. -/
def insert? (t : Table key) (r : ρ) : Option (Table key) :=
  if h : t.Holds (key r) then none else some (t.push r h)

/-- `INSERT … ON CONFLICT(key) DO UPDATE`. -/
def upsert (t : Table key) (r : ρ) (f : ρ → ρ) (hf : ∀ r, key (f r) = key r) : Table key :=
  if h : t.Holds (key r) then t.update (fun o => key o = key r) f hf else t.push r h

/-- `INSERT OR REPLACE`. -/
def replace (t : Table key) (r : ρ) : Table key := (t.delete (key r)).push r (t.not_holds_delete _)

theorem find?_eq_some : t.find? k = some r ↔ r ∈ t.rows ∧ key r = k := by
  constructor
  · intro h
    exact ⟨mem_of_find?_eq_some h, by simpa using find?_some h⟩
  · rintro ⟨hr, rfl⟩
    cases hf : t.find? (key r) with
    | none => simpa using List.find?_eq_none.mp hf r hr
    | some a =>
      have ha : key a = key r := by simpa using find?_some hf
      rw [eq_of_key_eq (mem_of_find?_eq_some hf) hr ha]

theorem find?_eq_none : t.find? k = none ↔ ¬ t.Holds k := by
  simp [find?, Holds]

theorem insert?_eq_some {t' : Table key} : t.insert? r = some t' ↔ ∃ h :
    ¬ t.Holds (key r), t' = t.push r h := by
  rw [insert?]
  split_ifs with h
  · simp [h]
  · simp [h, eq_comm]

theorem mem_delete : a ∈ (t.delete k).rows ↔ a ∈ t.rows ∧ key a ≠ k := by
  simp [delete]

theorem holds_replace : (t.replace r).Holds k ↔ t.Holds k ∨ k = key r := by
  rw [replace, holds_push, holds_iff, holds_iff]
  simp only [mem_delete]
  by_cases hk : k = key r
  · simp [hk]
  · simp only [hk, or_false]
    exact ⟨fun ⟨a, ha, e⟩ => ⟨a, ha.1, e⟩, fun ⟨a, ha, e⟩ => ⟨a, ⟨ha, e ▸ hk⟩, e⟩⟩

section
variable (hf : ∀ r, key (f r) = key r)

theorem holds_upsert : (t.upsert r f hf).Holds k ↔ t.Holds k ∨ k = key r := by
  rw [upsert]
  split_ifs with h
  · rw [holds_update]
    exact ⟨.inl, fun hk => hk.elim id (· ▸ h)⟩
  · exact holds_push h

theorem find?_update (k : κ) :
    (t.update p f hf).find? k = (t.find? k).map fun r => if p r then f r else r := by
  have hkey (r : ρ) : key (if p r then f r else r) = key r := by
    split_ifs
    · exact hf r
    · rfl
  rw [find?, update, find?_map]
  congr 2
  funext r
  rw [Function.comp_apply, hkey]

theorem find?_push (h : ¬ t.Holds (key r)) (k : κ) :
    (t.push r h).find? k = if k = key r then some r else t.find? k := by
  rw [find?, push]
  split_ifs with hk
  · have hnone := find?_eq_none.mpr h
    rw [find?] at hnone
    subst hk
    simp [hnone]
  · have hne : ¬ key r = k := (hk ·.symm)
    simp [find?, hne]

theorem find?_replace (k : κ) : (t.replace r).find? k = if k = key r then some r else t.find? k := by
  rw [replace, find?_push]
  split_ifs with hk
  · rfl
  · cases hfind : t.find? k with
    | none =>
      rw [find?_eq_none] at hfind ⊢
      intro hin
      obtain ⟨a, ha, rfl⟩ := holds_iff.mp hin
      exact hfind (holds_of_mem (mem_delete.mp ha).1)
    | some a =>
      obtain ⟨ha, hak⟩ := find?_eq_some.mp hfind
      exact find?_eq_some.mpr ⟨mem_delete.mpr ⟨ha, fun h => hk (hak.symm.trans h)⟩, hak⟩

theorem find?_update_one (hp : ∀ r, p r → key r = k)
    (hr : t.find? k = some r) (hpr : p r) (k' : κ) :
    (t.update p f hf).find? k' = if k' = k then some (f r) else t.find? k' := by
  rw [find?_update]
  split_ifs with hk
  · rw [hk, hr, Option.map_some, if_pos hpr]
  · cases hfind : t.find? k' with
    | none => rfl
    | some r' =>
      have hno : ¬p r' := fun h => hk ((find?_eq_some.mp hfind).2.symm.trans (hp r' h))
      rw [Option.map_some, if_neg hno]

end

def affected (t : Table key) (p : ρ → Bool) : Nat := t.rows.countP p

theorem affected_eq_one (hp : ∀ r, p r → key r = k) : t.affected p = 1 ↔ ∃ r, t.find? k = some r ∧ p r := by
  have hle : t.affected p ≤ (t.rows.map key).count k := by
    rw [List.count, countP_map]
    refine countP_mono_left fun r _ hr => ?_
    simp [hp r hr]
  have hone : (t.rows.map key).count k ≤ 1 := nodup_iff_count_le_one.mp t.nodup k
  have hpos : 0 < t.affected p ↔ ∃ r ∈ t.rows, p r := countP_pos_iff
  constructor
  · intro h
    obtain ⟨r, hr, hpr⟩ := hpos.mp (by omega)
    exact ⟨r, find?_eq_some.mpr ⟨hr, hp r hpr⟩, hpr⟩
  · rintro ⟨r, hr, hpr⟩
    have := hpos.mpr ⟨r, (find?_eq_some.mp hr).1, hpr⟩
    omega

end Table

end Lib
