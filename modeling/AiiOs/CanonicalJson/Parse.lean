import AiiOs.Lib.Json.Tree
import AiiOs.CanonicalJson.Canonicalize

/-! The parser is the library's reader under its own policy: canonical numbers,
no NUL in a string, no key twice. -/

namespace AiiOs.CanonicalJson
open Lib Lib.Json List

mutual

/-- What `parseCanonicalJSONValue` asks of a value beyond being JSON. -/
def InProfile : Value → Prop
  | .num lit => canonicalJSONNumber lit = true
  | .str s => '\x00' ∉ s
  | .arr vs => ElemsInProfile vs
  | .obj ms => (ms.map Prod.fst).Nodup ∧ MembersInProfile ms
  | .bool _ => True
  | .null => True

def ElemsInProfile : List Value → Prop
  | [] => True
  | v :: vs => InProfile v ∧ ElemsInProfile vs

def MembersInProfile : List (List Char × Value) → Prop
  | [] => True
  | (_, v) :: ms => InProfile v ∧ MembersInProfile ms

end

def profile : Policy where
  scalar
    | .num lit => canonicalJSONNumber lit
    | .str s => !('\x00' ∈ s)
    | _ => true
  key keys k := !(k ∈ keys)

@[simp] theorem profile_key {keys : List (List Char)} {k : List Char} : profile.key keys k ↔ k ∉ keys := by
  simp [profile]

variable {vs : List Value} {ms : List (List Char × Value)} {v : Value} {x : List Char}

theorem elemsInProfile_iff : ElemsInProfile vs ↔ ∀ v ∈ vs, InProfile v := by
  induction vs with
  | nil => simp [ElemsInProfile]
  | cons v vs ih => simp [ElemsInProfile, ih]

theorem membersInProfile_iff : MembersInProfile ms ↔ ∀ m ∈ ms, InProfile m.2 := by
  induction ms with
  | nil => simp [MembersInProfile]
  | cons m ms ih => simp [MembersInProfile, ih]

theorem profile_elemsOk (ih : ∀ v ∈ vs, (profile.ok v ↔ InProfile v)) :
    profile.elemsOk vs ↔ ElemsInProfile vs := by
  induction vs with
  | nil => simp [Policy.elemsOk, ElemsInProfile]
  | cons v vs ihv =>
    rw [forall_mem_cons] at ih
    simp only [Policy.elemsOk, ElemsInProfile, Bool.and_eq_true, ih.1, ihv ih.2]

theorem profile_membersOk (keys : List (List Char))
    (ih : ∀ m ∈ ms, (profile.ok m.2 ↔ InProfile m.2)) :
    profile.membersOk keys ms ↔ (∀ k ∈ ms.map Prod.fst, k ∉ keys) ∧ (ms.map Prod.fst).Nodup ∧
      MembersInProfile ms := by
  induction ms generalizing keys with
  | nil => simp [Policy.membersOk, MembersInProfile]
  | cons m ms ihm =>
    rw [forall_mem_cons] at ih
    simp only [Policy.membersOk, Bool.and_eq_true, ih.1, ihm _ ih.2, profile_key,
      map_cons, nodup_cons, forall_mem_cons, mem_append, mem_singleton,
      not_or]
    constructor
    · rintro ⟨h1, h2, h3, h4, h5⟩
      exact ⟨⟨h1, fun k hk => (h3 k hk).1⟩, ⟨fun hm => (h3 _ hm).2 rfl, h4⟩, h2, h5⟩
    · rintro ⟨⟨h1, h2⟩, ⟨h3, h4⟩, h5, h6⟩
      refine ⟨h1, h5, fun k hk => ⟨h2 k hk, ?_⟩, h4, h6⟩
      rintro rfl
      exact h3 hk

theorem profile_ok_iff (v : Value) : profile.ok v ↔ InProfile v := by
  induction v using Value.induct with
  | null => simp [Policy.ok, profile, InProfile]
  | bool b => simp [Policy.ok, profile, InProfile]
  | num lit => simp [Policy.ok, profile, InProfile]
  | str s => simp [Policy.ok, profile, InProfile]
  | arr vs ih => simpa only [Policy.ok, InProfile] using profile_elemsOk ih
  | obj ms ih => simpa [Policy.ok, InProfile] using profile_membersOk [] ih

theorem parse_eq_read (n : Nat) :
    (∀ d, (parseCanonicalJSONValue n d).toOption = readTree profile n d) ∧
    (∀ d acc, (parseElems n d acc).toOption = readElems profile n d acc) ∧
    (∀ d acc, (parseMembers n d acc).toOption = readMembers profile n d acc) := by
  induction n with
  | zero => exact ⟨fun _ => rfl, fun _ _ => rfl, fun _ _ => rfl⟩
  | succ n ih =>
    obtain ⟨ihv, ihe, ihm⟩ := ih
    refine ⟨fun d => ?_, fun d acc => ?_, fun d acc => ?_⟩
    · rw [parseCanonicalJSONValue, readTree]
      rcases d.token with e | ⟨tok, d'⟩
      · rfl
      cases tok with
      | delim c =>
        simp only [apply_ite Except.toOption, ihe, ihm]
        rfl
      | str s => by_cases h : '\x00' ∈ s <;> simp [profile, h, Except.toOption]
      | num lit => by_cases h : canonicalJSONNumber lit <;> simp [profile, h, Except.toOption]
      | bool b => rfl
      | null => rfl
    · rw [parseElems, readElems, ← ihv]
      by_cases hm : d.more
      · rw [if_pos hm, if_pos hm]
        rcases parseCanonicalJSONValue n d with e | ⟨v, d'⟩
        · rfl
        · exact ihe d' _
      · rw [if_neg hm, if_neg hm]
        rcases d.token with e | ⟨tok, d'⟩
        · rfl
        · exact apply_ite Except.toOption _ _ _
    · rw [parseMembers, readMembers]
      by_cases hm : d.more
      · rw [if_pos hm, if_pos hm]
        rcases d.token with e | ⟨tok, d'⟩
        · rfl
        cases tok with
        | str key =>
          simp only [← ihv]
          by_cases hk : key ∈ acc.map Prod.fst
          · rw [if_pos hk, if_neg (by simpa using hk)]
            rfl
          · rw [if_neg hk, if_pos (by simpa using hk)]
            rcases parseCanonicalJSONValue n d' with e | ⟨v, d''⟩
            · rfl
            · exact ihm d'' _
        | _ => rfl
      · rw [if_neg hm, if_neg hm]
        rcases d.token with e | ⟨tok, d'⟩
        · rfl
        · exact apply_ite Except.toOption _ _ _

theorem parseDocument_eq_read (x : List Char) : (parseDocument x).toOption = readDocument profile x := by
  unfold parseDocument readDocument
  rw [← (parse_eq_read _).1]
  rcases parseCanonicalJSONValue _ _ with e | ⟨v, d⟩
  · rfl
  · simp only [Except.toOption]
    rcases d.token with e | ⟨tok, d'⟩
    · cases e <;> rfl
    · rfl

/-- The parser accepts a text exactly as the spelling of one value of the profile. -/
theorem parseDocument_eq_ok :
    parseDocument x = .ok v ↔ Document v x ∧ InProfile v ∧ v.depth ≤ maxNestingDepth := by
  rw [← profile_ok_iff, ← readDocument_eq_some, ← parseDocument_eq_read]
  cases parseDocument x <;> simp [Except.toOption]

theorem eq_of_parseDocument {w : Value} (h : parseDocument x = .ok v) (hw : Document w x) : w = v := by
  have hread : _ = some v := (parseDocument_eq_read x).symm.trans (congrArg Except.toOption h)
  rw [readDocument_document hw] at hread
  split_ifs at hread
  exact Option.some.inj hread

end AiiOs.CanonicalJson
