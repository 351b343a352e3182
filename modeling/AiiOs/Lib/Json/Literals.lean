import AiiOs.Lib.Json.Decoder

/-! The literal readers against the grammar: each takes a spelling off the
front of the input, and takes all of it when what follows cannot continue it. -/

namespace Lib.Json
open List Option

/-! ### Strings -/

variable {is : List Item} {f lit : List Char}

theorem lexString_complete {body : List Char} (h : Body body is)
    (rest : List Char) : lexString (body ++ '"' :: rest) = some (is, rest) := by
  induction h with
  | nil => rw [nil_append, lexString.eq_def]; simp only [if_true]
  | raw hq hb hc _ ih =>
    rw [cons_append, lexString.eq_def]
    simp only [if_neg hq, if_neg hb, if_neg (not_lt.mpr hc), ih, map_some]
  | @esc e c t is he _ ih =>
    have hu : e ≠ 'u' := by
      rintro rfl
      simp [simpleEscape] at he
    have hq : ('\\' : Char) ≠ '"' := by decide
    rw [cons_append, cons_append, lexString.eq_def]
    simp only [if_neg hq, if_true, if_neg hu, he, ih, map_some]
  | uni hn _ ih =>
    have hq : ('\\' : Char) ≠ '"' := by decide
    simp only [cons_append]
    rw [lexString.eq_def]
    simp only [if_neg hq, if_true, hn, ih, map_some]

variable {cs e rest : List Char} {p : List Char × List Char}

theorem lexString_sound {n : Nat} (hn : cs.length ≤ n) (h : lexString cs = some (is, rest)) :
    ∃ body, Body body is ∧ cs = body ++ '"' :: rest := by
  induction n generalizing cs is rest with
  | zero =>
    obtain rfl := eq_nil_of_length_eq_zero (Nat.le_zero.mp hn)
    simp [lexString] at h
  | succ n ih =>
    rw [lexString.eq_def] at h
    split at h
    · simp at h
    simp only [length_cons] at hn
    split_ifs at h with hq hb hc
    · obtain ⟨rfl, rfl⟩ := h
      exact ⟨[], .nil, by rw [hq]; rfl⟩
    · subst hb
      split at h
      · simp at h
      simp only [length_cons] at hn
      split_ifs at h with hu
      · subst hu
        split at h
        · simp only [length_cons] at hn
          split at h
          · rename_i m hm
            obtain ⟨p, hp, hpe⟩ := map_eq_some_iff.mp h
            obtain ⟨rfl, rfl⟩ := hpe
            obtain ⟨body, hbody, rfl⟩ := ih (by omega) hp
            exact ⟨_, .uni hm hbody, rfl⟩
          · simp at h
        · simp at h
      · split at h
        · rename_i c hc
          obtain ⟨p, hp, hpe⟩ := map_eq_some_iff.mp h
          obtain ⟨rfl, rfl⟩ := hpe
          obtain ⟨body, hbody, rfl⟩ := ih (by omega) hp
          exact ⟨_, .esc hc hbody, rfl⟩
        · simp at h
    · obtain ⟨p, hp, hpe⟩ := map_eq_some_iff.mp h
      obtain ⟨rfl, rfl⟩ := hpe
      obtain ⟨body, hbody, rfl⟩ := ih (by omega) hp
      exact ⟨_, .raw hq hb (by omega) hbody, rfl⟩

/-! ### Numbers -/

def NumEnd (rest : List Char) : Prop :=
  ∀ c r, rest = c :: r → c.isDigit = false ∧ c ≠ '.' ∧ c ≠ 'e' ∧ c ≠ 'E'

def DigitsEnd (rest : List Char) : Prop := ∀ c r, rest = c :: r → c.isDigit = false

theorem NumEnd.digitsEnd (h : NumEnd rest) : DigitsEnd rest := fun c r hr => (h c r hr).1

theorem spanDigits_complete {ds rest : List Char} (hd : Digits ds) (hr : DigitsEnd rest) :
    spanDigits (ds ++ rest) = (ds, rest) := by
  induction ds with
  | nil =>
    cases rest with
    | nil => rfl
    | cons c r => simp [spanDigits, hr c r rfl]
  | cons d ds ih =>
    have hd' := hd d (mem_cons_self ..)
    simp [spanDigits, hd', ih fun c hc => hd c (mem_cons_of_mem _ hc)]

theorem spanDigits_sound (cs : List Char) :
    Digits (spanDigits cs).1 ∧ cs = (spanDigits cs).1 ++ (spanDigits cs).2 := by
  induction cs with
  | nil => exact ⟨fun _ h => absurd h (by simp [spanDigits]), rfl⟩
  | cons c cs ih =>
    by_cases hc : c.isDigit
    · simp only [spanDigits, hc, if_true]
      refine ⟨fun d hd => ?_, by rw [cons_append, ← ih.2]⟩
      rcases mem_cons.mp hd with rfl | hd
      · exact hc
      · exact ih.1 d hd
    · simp [spanDigits, hc, Digits]

theorem digit_ne {c d : Char} (hc : c.isDigit) (hd : d.isDigit = false) : c ≠ d := by
  rintro rfl
  simp [hc] at hd

theorem digitsEnd_expPart (he : ExpPart e) (hr : NumEnd rest) : DigitsEnd (e ++ rest) := by
  cases he with
  | none => exact hr.digitsEnd
  | some he _ _ _ =>
    intro c r h
    rw [cons_append, List.cons.injEq] at h
    rw [← h.1]
    rcases he with rfl | rfl <;> decide

theorem digitsEnd_fracPart (hf : FracPart f) (he : ExpPart e) (hr : NumEnd rest) :
    DigitsEnd (f ++ (e ++ rest)) := by
  cases hf with
  | none => simpa using digitsEnd_expPart he hr
  | some _ _ =>
    intro c r h
    rw [cons_append, List.cons.injEq] at h
    rw [← h.1]
    decide

theorem scanInt_complete {i : List Char} (hi : IntPart i) (hr : DigitsEnd rest) :
    scanInt (i ++ rest) = some (i, rest) := by
  cases hi with
  | zero => simp [scanInt]
  | pos hd h0 hds => simp [scanInt, h0, hd, spanDigits_complete hds hr]

theorem scanFrac_complete (hf : FracPart f) (he : ExpPart e) (hr : NumEnd rest) :
    scanFrac (f ++ (e ++ rest)) = some (f, e ++ rest) := by
  cases hf with
  | none =>
    have hdot : ∀ c r, e ++ rest = c :: r → c ≠ '.' := by
      intro c r h
      cases he with
      | none => exact (hr c r h).2.1
      | some he _ _ _ =>
        rw [cons_append, List.cons.injEq] at h
        rw [← h.1]
        rcases he with rfl | rfl <;> decide
    cases h : e ++ rest with
    | nil => rfl
    | cons c r => simp [scanFrac, hdot c r h]
  | some hne hds => simp [scanFrac, spanDigits_complete hds (digitsEnd_expPart he hr), hne]

theorem scanExp_complete (he : ExpPart e) (hr : NumEnd rest) : scanExp (e ++ rest) = some (e, rest) := by
  cases he with
  | none =>
    cases rest with
    | nil => rfl
    | cons c r => simp [scanExp, (hr c r rfl).2.2.1, (hr c r rfl).2.2.2]
  | @some e sgn ds he hs hne hds =>
    have hsgn : scanExpSign (sgn ++ (ds ++ rest)) = (sgn, ds ++ rest) := by
      rcases hs with rfl | rfl | rfl
      · cases ds with
        | nil => exact absurd rfl hne
        | cons d ds =>
          have hd := hds d (mem_cons_self ..)
          simp [scanExpSign, digit_ne hd (d := '+') (by decide), digit_ne hd (d := '-') (by decide)]
      · simp [scanExpSign]
      · simp [scanExpSign]
    simp [scanExp, he, hsgn, spanDigits_complete hds hr.digitsEnd, hne]

theorem scanNumber_complete (hl : Number lit) (hr : NumEnd rest) :
    scanNumber (lit ++ rest) = some (lit, rest) := by
  obtain ⟨sgn, i, f, e, hs, hi, hf, he, rfl⟩ := hl
  have hsgn : scanSign (sgn ++ (i ++ (f ++ (e ++ rest)))) = (sgn, i ++ (f ++ (e ++ rest))) := by
    rcases hs with rfl | rfl
    · cases hi with
      | zero => simp [scanSign]
      | pos hd _ _ => simp [scanSign, digit_ne hd (d := '-') (by decide)]
    · simp [scanSign]
  simp only [append_assoc, scanNumber, hsgn, scanInt_complete hi (digitsEnd_fracPart hf he hr),
    scanFrac_complete hf he hr, scanExp_complete he hr]

theorem scanInt_sound (h : scanInt cs = some p) : IntPart p.1 ∧ cs = p.1 ++ p.2 := by
  cases cs with
  | nil => simp [scanInt] at h
  | cons c cs =>
    simp only [scanInt] at h
    split_ifs at h with h0 hd
    · cases h
      exact ⟨.zero, by rw [h0]; rfl⟩
    · cases h
      have hs := spanDigits_sound cs
      exact ⟨.pos hd h0 hs.1, by rw [cons_append, ← hs.2]⟩

theorem scanFrac_sound (h : scanFrac cs = some p) : FracPart p.1 ∧ cs = p.1 ++ p.2 := by
  cases cs with
  | nil =>
    cases h
    exact ⟨.none, rfl⟩
  | cons c cs =>
    simp only [scanFrac] at h
    split_ifs at h with hdot hne
    · cases h
      have hs := spanDigits_sound cs
      exact ⟨.some hne hs.1, by rw [hdot, cons_append, ← hs.2]⟩
    · cases h
      exact ⟨.none, rfl⟩

theorem scanExpSign_sound (cs : List Char) :
    ((scanExpSign cs).1 = [] ∨ (scanExpSign cs).1 = ['+'] ∨ (scanExpSign cs).1 = ['-']) ∧
      cs = (scanExpSign cs).1 ++ (scanExpSign cs).2 := by
  cases cs with
  | nil => simp [scanExpSign]
  | cons c cs =>
    simp only [scanExpSign]
    split_ifs with h
    · rcases h with rfl | rfl <;> simp
    · simp

theorem scanExp_sound (h : scanExp cs = some p) : ExpPart p.1 ∧ cs = p.1 ++ p.2 := by
  cases cs with
  | nil =>
    cases h
    exact ⟨.none, rfl⟩
  | cons c cs =>
    simp only [scanExp] at h
    split_ifs at h with he hne
    · cases h
      have hs := scanExpSign_sound cs
      have hd := spanDigits_sound (scanExpSign cs).2
      refine ⟨.some he hs.1 hne hd.1, ?_⟩
      rw [cons_append, append_assoc, ← hd.2, ← hs.2]
    · cases h
      exact ⟨.none, rfl⟩

theorem scanSign_sound (cs : List Char) :
    ((scanSign cs).1 = [] ∨ (scanSign cs).1 = ['-']) ∧ cs = (scanSign cs).1 ++ (scanSign cs).2 := by
  cases cs with
  | nil => simp [scanSign]
  | cons c cs =>
    simp only [scanSign]
    split_ifs with h
    · simp [h]
    · simp

theorem scanNumber_sound (h : scanNumber cs = some (lit, rest)) : Number lit ∧ cs = lit ++ rest := by
  unfold scanNumber at h
  have hs := scanSign_sound cs
  simp only at h
  split at h
  · simp at h
  rename_i i hi
  split at h
  · simp at h
  rename_i f hf
  split at h
  · simp at h
  rename_i e he
  obtain ⟨rfl, rfl⟩ := h
  obtain ⟨hi, hi'⟩ := scanInt_sound hi
  obtain ⟨hf, hf'⟩ := scanFrac_sound hf
  obtain ⟨he, he'⟩ := scanExp_sound he
  refine ⟨⟨_, _, _, _, hs.1, hi, hf, he, rfl⟩, ?_⟩
  rw [append_assoc, append_assoc, append_assoc, ← he', ← hf', ← hi', ← hs.2]

/-! ### Words -/

theorem scanWord_complete (w rest : List Char) : scanWord w (w ++ rest) = some rest := by
  induction w with
  | nil => simp [scanWord]
  | cons c w ih => simp [scanWord, ih]

theorem scanWord_sound {w : List Char} (h : scanWord w cs = some rest) : cs = w ++ rest := by
  induction w generalizing cs with
  | nil => simpa [scanWord] using h
  | cons c w ih =>
    cases cs with
    | nil => simp [scanWord] at h
    | cons d cs =>
      simp only [scanWord] at h
      split_ifs at h with hd
      rw [hd, cons_append, ih h]

end Lib.Json
