import AiiOs.Lib.Json.Struct

/-! Struct types given field by field. What a struct reads for one of its fields depends
on the members that fold to the field's name alone, so two structs that share a field
read the same value for it. -/

namespace Lib.Json
open List Option

/-! ### Field values -/

def storeBool (old : Bool) : Value → Option Bool
  | .bool b => some b
  | .null => some old
  | _ => none

/-- A pointer: `null` clears it, any other value is stored in what it points to. -/
def storePointer {α : Type} (zero : α) (store : α → Value → Option α) (old : Option α) :
    Value → Option (Option α)
  | .null => some none
  | v => (store (old.getD zero) v).map some

def storeElems {α : Type} (zero : α) (store : α → Value → Option α) :
    List α → List Value → Option (List α)
  | _, [] => some []
  | old, v :: vs =>
    match store (old.headD zero) v with
    | none => none
    | some a => (storeElems zero store old.tail vs).map (a :: ·)

/-- A slice; `null` empties it. -/
def storeSlice {α : Type} (zero : α) (store : α → Value → Option α) (old : List α) :
    Value → Option (List α)
  | .arr vs => storeElems zero store old vs
  | .null => some []
  | _ => none

/-- A nested struct. The text of a nested value is not kept. -/
def StructType.value {σ : Type} (T : StructType σ) (s : σ) : Value → Option σ
  | .obj ms => ms.foldlM (fun s m => T.step s ⟨m.1, m.2, []⟩) s
  | .null => some s
  | _ => none

/-! ### Struct types by their fields -/

section
variable {σ α : Type}

def field (store : α → Value → Option α) (get : σ → α) (set : σ → α → σ) (s : σ) (m : Member) :
    Option σ := (store (get s) m.value).map (set s)

abbrev FieldList (σ : Type) := List (String × (σ → Member → Option σ))

def structType (strict : Bool) (fields : FieldList σ) : StructType σ where
  names := fields.map fun f => f.1.toList
  strict := strict
  store s name m := match fields.find? fun f => f.1.toList = name with
    | some f => f.2 s m
    | none => none

variable {fields : FieldList σ} {strict : Bool}

theorem structType_step_folded (hfold : ∀ f ∈ fields, f.1.toList.map foldRune = f.1.toList) (s : σ)
    (m : Member) :
    (structType strict fields).step s m = match fields.find? fun f => f.1.toList = m.key.map foldRune with
      | some f => f.2 s m
      | none => if strict then none else some s := by
  have hnames : ∀ key, key ∈ (structType strict fields).names ↔ ∃ f ∈ fields, f.1.toList = key :=
    fun key => List.mem_map
  rw [StructType.step, fieldOf]
  by_cases hkey : m.key ∈ (structType strict fields).names
  · have hsame : m.key.map foldRune = m.key := by
      obtain ⟨f, hf, hname⟩ := (hnames _).mp hkey
      rw [← hname, hfold f hf]
    obtain ⟨f, hf, hname⟩ := (hnames _).mp hkey
    rw [if_pos hkey, hsame]
    simp only [structType]
    cases hfind : fields.find? fun f => f.1.toList = m.key with
    | some f => rfl
    | none => exact absurd hname (by simpa using List.find?_eq_none.mp hfind f hf)
  · rw [if_neg hkey]
    by_cases hkey' : m.key.map foldRune ∈ (structType strict fields).names
    · obtain ⟨f, hf, hname⟩ := (hnames _).mp hkey'
      rw [if_pos hkey']
      simp only [structType]
      cases hfind : fields.find? fun f => f.1.toList = m.key.map foldRune with
      | some f => rfl
      | none => exact absurd hname (by simpa using List.find?_eq_none.mp hfind f hf)
    · have hnone : fields.find? (·.1.toList = m.key.map foldRune) = none := by
        rw [List.find?_eq_none]
        intro f hf hname
        exact hkey' ((hnames _).mpr ⟨f, hf, by simpa using hname⟩)
      rw [if_neg hkey', hnone]
      rfl

/-- The members of the object a text holds, none for `null`. -/
def membersOf (x : List Char) : Option (List Member) := match readFirst x with
  | some (.inr ms, rest) => if rest.all isSpace then some ms else none
  | some (.inl .null, rest) => if rest.all isSpace then some [] else none
  | _ => none

theorem StructType.unmarshal_eq (T : StructType σ) (s : σ) (x : List Char) :
    T.unmarshal s x = (membersOf x).bind fun ms => ms.foldlM T.step s := by
  rw [unmarshal, membersOf]
  rcases readFirst x with _ | ⟨v | ms, rest⟩
  · rfl
  · cases v with
    | null =>
      simp only
      split_ifs <;> rfl
    | _ => rfl
  · simp only
    split_ifs <;> rfl

section
variable {τ : Type}

/-- A struct some of whose fields another struct has under the same names: `view` forgets
the rest. -/
structure Views (fields : FieldList σ) (fewer : FieldList τ) (view : σ → τ) : Prop where
  names : ∀ f ∈ fewer, f.1 ∈ fields.map Prod.fst
  shared : ∀ f ∈ fields, ∀ g ∈ fewer, g.1 = f.1 → ∀ s m s', f.2 s m = some s' →
    g.2 (view s) m = some (view s')
  other : ∀ f ∈ fields, f.1 ∉ fewer.map Prod.fst → ∀ s m s', f.2 s m = some s' → view s' = view s
  folded : ∀ f ∈ fields, f.1.toList.map foldRune = f.1.toList

variable {fewer : FieldList τ} {view : σ → τ} {s s' : σ}

section
variable (h : Views fields fewer view)
include h

theorem Views.step {m : Member} (hs : (structType strict fields).step s m = some s') :
    (structType false fewer).step (view s) m = some (view s') := by
  have hfewer : ∀ g ∈ fewer, g.1.toList.map foldRune = g.1.toList := fun g hg => by
    obtain ⟨f, hf, hname⟩ := List.mem_map.mp (h.names g hg)
    rw [← hname, h.folded f hf]
  rw [structType_step_folded h.folded] at hs
  rw [structType_step_folded hfewer]
  cases hg : fewer.find? fun g => g.1.toList = m.key.map foldRune with
  | some g =>
    have hgm := mem_of_find?_eq_some hg
    have hgkey : g.1.toList = m.key.map foldRune := by simpa using find?_some hg
    cases hf : fields.find? fun f => f.1.toList = m.key.map foldRune with
    | some f =>
      have hfkey : f.1.toList = m.key.map foldRune := by simpa using find?_some hf
      rw [hf] at hs
      exact h.shared f (mem_of_find?_eq_some hf) g hgm
        (String.toList_injective (hgkey.trans hfkey.symm)) s m s' hs
    | none =>
      obtain ⟨f, hfm, hname⟩ := List.mem_map.mp (h.names g hgm)
      have hne := List.find?_eq_none.mp hf f hfm
      rw [hname] at hne
      exact absurd hgkey (by simpa using hne)
  | none =>
    cases hf : fields.find? fun f => f.1.toList = m.key.map foldRune with
    | some f =>
      have hfkey : f.1.toList = m.key.map foldRune := by simpa using find?_some hf
      have hnot : f.1 ∉ fewer.map Prod.fst := fun hin => by
        obtain ⟨g, hgm, hname⟩ := List.mem_map.mp hin
        have hne := List.find?_eq_none.mp hg g hgm
        rw [hname] at hne
        exact absurd hfkey (by simpa using hne)
      rw [hf] at hs
      simp only [Bool.false_eq_true, if_false]
      rw [h.other f (mem_of_find?_eq_some hf) hnot s m s' hs]
    | none =>
      rw [hf] at hs
      split_ifs at hs
      cases hs
      rfl

theorem Views.fold {ms : List Member} (hs : ms.foldlM (structType strict fields).step s = some s') :
    ms.foldlM (structType false fewer).step (view s) = some (view s') := by
  induction ms generalizing s with
  | nil =>
    cases hs
    rfl
  | cons m ms ih =>
    rw [foldlM_cons] at hs ⊢
    obtain ⟨t, ht, hs⟩ := bind_eq_some_iff.mp hs
    rw [h.step ht]
    exact ih hs

theorem Views.unmarshal {x : List Char} (hs : (structType strict fields).unmarshal s x = some s') :
    (structType false fewer).unmarshal (view s) x = some (view s') := by
  rw [StructType.unmarshal_eq] at hs ⊢
  obtain ⟨ms, hms, hs⟩ := bind_eq_some_iff.mp hs
  rw [hms]
  exact h.fold hs

end

end

/-- A pointer to a slice holds what the slice itself would; `null` makes both empty. -/
theorem storePointer_getD {store : List α → Value → Option (List α)} (hnull : ∀ l, store l .null = some [])
    {o o' : Option (List α)} {v : Value} (h : storePointer [] store o v = some o') :
    store (o.getD []) v = some (o'.getD []) := by
  cases v with
  | null =>
    cases h
    exact hnull _
  | _ =>
    obtain ⟨a, ha, rfl⟩ := map_eq_some_iff.mp h
    exact ha

end

end Lib.Json
