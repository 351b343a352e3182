import AiiOs.CanonicalJson.NormalForm

/-! internal/canonicaljson: what the profile of `CanonicalizeV1` asks of a document, said of
the document and its value, and what of it the three checks (the scan of the raw text, the
parser and the recogniser of numbers) enforce. -/

namespace AiiOs.CanonicalJson
open Lib Lib.Json List

/-! ### The profile -/

inductive Within : Value → Value → Prop
  | refl (v : Value) : Within v v
  | elem {w v : Value} {vs : List Value} : v ∈ vs → Within w v → Within w (.arr vs)
  | member {w : Value} {m : List Char × Value} {ms : List (List Char × Value)} :
      m ∈ ms → Within w m.2 → Within w (.obj ms)

/-- The halves of surrogate pairs stand in pairs. -/
inductive Paired : List Item → Prop
  | nil : Paired []
  | whole {i : Item} {is : List Item} : i.whole → Paired is → Paired (i :: is)
  | pair {hi lo : Nat} {is : List Item} : isHigh hi → isLow lo → Paired is →
      Paired (.unit hi :: .unit lo :: is)

/-- The string literals of a text: each of its units satisfies the condition. A quote
outside of a literal begins one. -/
inductive Literals (P : List Item → Prop) : List Char → Prop
  | nil : Literals P []
  | plain {c : Char} {t : List Char} : c ≠ '"' → Literals P t → Literals P (c :: t)
  | literal {b t : List Char} {is : List Item} : Body b is → P is → Literals P t →
      Literals P ('"' :: (b ++ '"' :: t))

structure CanonicalLiteral (lit : List Char) : Prop where
  exponent : 'e' ∉ lit ∧ 'E' ∉ lit
  plus : '+' ∉ lit
  leadingZero : ∀ sgn d ds, sgn = [] ∨ sgn = ['-'] → d.isDigit → lit ≠ sgn ++ '0' :: d :: ds
  trailingZero : ∀ i ds, lit ≠ i ++ '.' :: (ds ++ ['0'])
  minusZero : lit ≠ ['-', '0']

def KeysWithoutNul (v : Value) : Prop := ∀ ms, Within (.obj ms) v → ∀ m ∈ ms, '\x00' ∉ m.1

/-- The stated profile of a document and its value. -/
structure StatedProfile (text : List Char) (v : Value) : Prop where
  keys : KeysWithoutNul v
  strings : ∀ s, Within (.str s) v → '\x00' ∉ s
  surrogates : Literals Paired text
  distinct : ∀ ms, Within (.obj ms) v → (ms.map Prod.fst).Nodup
  numbers : ∀ lit, Within (.num lit) v → CanonicalLiteral lit

/-! ### The parser -/

theorem InProfile.within {v w : Value} (h : InProfile v) (hw : Within w v) : InProfile w := by
  induction hw with
  | refl => exact h
  | elem hmem _ ih => exact ih (elemsInProfile_iff.mp h _ hmem)
  | member hmem _ ih => exact ih (membersInProfile_iff.mp h.2 _ hmem)

theorem isDigit_of_mem_intPart {i : List Char} (h : IntPart i) {c : Char} (hc : c ∈ i) : c.isDigit := by
  cases h with
  | zero =>
    rw [mem_singleton.mp hc]
    decide
  | pos hd _ hds =>
    rcases mem_cons.mp hc with rfl | hc
    · exact hd
    · exact hds c hc

variable {sgn i f : List Char}

theorem Shape.mem (h : Shape sgn i f) {c : Char} (hc : c ∈ sgn ++ (i ++ f)) :
    c = '-' ∨ c = '.' ∨ c.isDigit := by
  rcases mem_append.mp hc with hc | hc
  · rcases h.sign with rfl | rfl
    · cases hc
    · exact .inl (mem_singleton.mp hc)
  · rcases mem_append.mp hc with hc | hc
    · exact .inr (.inr (isDigit_of_mem_intPart h.int hc))
    · cases h.frac with
      | none => cases hc
      | some _ hds =>
        rcases mem_cons.mp hc with rfl | hc
        · exact .inr (.inl rfl)
        · exact .inr (.inr (hds c hc))

variable {r : List Char}

theorem Shape.sign_eq (h : Shape sgn i f) {sgn' : List Char} (hs' : sgn' = [] ∨ sgn' = ['-'])
    (heq : sgn ++ (i ++ f) = sgn' ++ '0' :: r) : i ++ f = '0' :: r := by
  rcases h.sign with rfl | rfl <;> rcases hs' with rfl | rfl
  · exact heq
  · cases h.int with
    | zero => cases heq
    | pos hd _ _ =>
      rw [(List.cons.inj heq).1] at hd
      cases hd
  · cases heq
  · exact (List.cons.inj heq).2

theorem Shape.leadingZero (h : Shape sgn i f) {sgn' ds : List Char} {d : Char}
    (hs' : sgn' = [] ∨ sgn' = ['-'])
    (hd : d.isDigit) : sgn ++ (i ++ f) ≠ sgn' ++ '0' :: d :: ds := by
  intro heq
  have hrest := h.sign_eq hs' heq
  cases h.int with
  | zero =>
    cases h.frac with
    | none => cases hrest
    | some _ _ =>
      cases hrest
      cases hd
  | pos _ hzero _ => exact hzero (List.cons.inj hrest).1

theorem Shape.trailingZero (h : Shape sgn i f) (i' ds : List Char) :
    sgn ++ (i ++ f) ≠ i' ++ '.' :: (ds ++ ['0']) := by
  intro heq
  have hdot : '.' ∈ sgn ++ (i ++ f) := by
    rw [heq]
    exact mem_append_right _ mem_cons_self
  have hlast : (sgn ++ (i ++ f)).getLast? = some '0' := by
    rw [heq, ← cons_append, ← append_assoc, getLast?_concat]
  cases hf : h.frac with
  | none =>
    rw [append_nil] at hdot
    rcases mem_append.mp hdot with hdot | hdot
    · rcases h.sign with rfl | rfl
      · cases hdot
      · exact absurd (mem_singleton.mp hdot) (by decide)
    · exact absurd (isDigit_of_mem_intPart h.int hdot) (by decide)
  | some hne hds =>
    rw [← append_assoc, getLast?_append_of_ne_nil _ (cons_ne_nil _ _)] at hlast
    exact h.last hlast

theorem canonicalLiteral_of_canonicalJSONNumber {lit : List Char} (h : canonicalJSONNumber lit) :
    CanonicalLiteral lit := by
  obtain ⟨sgn, i, f, hshape, rfl⟩ := shape_of_canonicalJSONNumber h
  have hnot : ∀ c, c ≠ '-' → c ≠ '.' → c.isDigit = false → c ∉ sgn ++ (i ++ f) := by
    intro c hminus hdot hdigit hc
    rcases hshape.mem hc with hc | hc | hc
    · exact hminus hc
    · exact hdot hc
    · rw [hdigit] at hc
      cases hc
  refine ⟨⟨?_, ?_⟩, ?_, fun sgn' d ds hs' hd => hshape.leadingZero hs' hd, hshape.trailingZero, ?_⟩
  · exact hnot 'e' (by decide) (by decide) (by decide)
  · exact hnot 'E' (by decide) (by decide) (by decide)
  · exact hnot '+' (by decide) (by decide) (by decide)
  · intro heq
    have hrest := hshape.sign_eq (.inr rfl) heq
    have hminus : sgn = ['-'] := by
      rcases hshape.sign with rfl | hs
      · rw [hrest] at heq
        cases heq
      · exact hs
    cases hshape.int with
    | zero => exact hshape.zero hminus rfl (List.cons.inj hrest).2
    | pos _ hzero _ => exact hzero (List.cons.inj hrest).1

/-! ### The scan of the raw text -/

variable {first : Bool}

section
variable {P : List Item → Prop} {t t' : List Char}

theorem Literals.append (h : Literals P t) (h' : Literals P t') : Literals P (t ++ t') := by
  induction h with
  | nil => exact h'
  | plain hc _ ih => exact .plain hc ih
  | literal hb hp _ ih =>
    rw [cons_append, append_assoc]
    exact .literal hb hp ih

theorem literals_of_ne (h : ∀ c ∈ t, c ≠ '"') : Literals P t := by
  induction t with
  | nil => exact .nil
  | cons c t ih =>
    rw [forall_mem_cons] at h
    exact .plain h.1 (ih h.2)

theorem literals_ws (h : Ws t) : Literals P t := by
  refine literals_of_ne fun c hc => ?_
  rintro rfl
  exact absurd (h _ hc) (by decide)

theorem literals_str {s : List Char} (h : Str s t) : Literals (fun _ => True) t := by
  obtain ⟨body, is, hb, -, rfl⟩ := h
  exact .literal hb trivial .nil

theorem literals_lead (h : Lead first t) : Literals P t := by
  cases first with
  | true => exact literals_ws h
  | false =>
    obtain ⟨w, w', hw, hw', rfl⟩ := h
    exact (literals_ws hw).append (.plain (by decide) (literals_ws hw'))

end

theorem literals_elems {vs : List Value} (ih : ∀ v ∈ vs, ∀ t, Text v t → Literals (fun _ => True) t)
    (h : Elems first vs r) : Literals (fun _ => True) r := by
  induction vs generalizing first r with
  | nil =>
    obtain ⟨w, hw, rfl⟩ := h
    exact (literals_ws hw).append (.plain (by decide) .nil)
  | cons v vs ihv =>
    rw [forall_mem_cons] at ih
    obtain ⟨l, t, r', hl, ht, hr', rfl⟩ := h
    exact (literals_lead hl).append ((ih.1 t ht).append (ihv ih.2 hr'))

theorem literals_members {ms : List (List Char × Value)} (ih : ∀ m ∈ ms, ∀ t, Text m.2 t →
    Literals (fun _ => True) t) (h : Members first ms r) : Literals (fun _ => True) r := by
  induction ms generalizing first r with
  | nil =>
    obtain ⟨w, hw, rfl⟩ := h
    exact (literals_ws hw).append (.plain (by decide) .nil)
  | cons m ms ihm =>
    rw [forall_mem_cons] at ih
    obtain ⟨l, kt, w, w', t, r', hl, hk, hw, hw', ht, hr', rfl⟩ := h
    exact (literals_lead hl).append ((literals_str hk).append ((literals_ws hw).append
      (.plain (by decide) ((literals_ws hw').append ((ih.1 t ht).append (ihm ih.2 hr'))))))

variable {v : Value} {t x rest : List Char} {is : List Item}

theorem literals_text (h : Text v t) : Literals (fun _ => True) t := by
  induction v using Value.induct generalizing t with
  | null =>
    cases h
    exact literals_of_ne (@of_decide_eq_true _ (List.decidableBAll _ _) (by decide))
  | bool b =>
    cases h
    cases b <;> exact literals_of_ne (@of_decide_eq_true _ (List.decidableBAll _ _) (by decide))
  | num lit =>
    obtain ⟨rfl, hnumber⟩ := h
    exact literals_of_ne fun c hc => (number_plain hnumber c hc).1
  | str s => exact literals_str h
  | arr vs ih =>
    obtain ⟨r, hr, rfl⟩ := h
    exact .plain (by decide) (literals_elems (fun v hv t ht => ih v hv ht) hr)
  | obj ms ih =>
    obtain ⟨r, hr, rfl⟩ := h
    exact .plain (by decide) (literals_members (fun m hm t ht => ih m hm ht) hr)

theorem literals_document (h : Document v x) : Literals (fun _ => True) x := by
  obtain ⟨w, t, w', hw, ht, hw', rfl⟩ := h
  exact (literals_ws hw).append ((literals_text ht).append (literals_ws hw'))

theorem escapes_high {a b c d : Char} {hi : Nat} (hx : hex4 a b c d = some hi) (hhigh : isHigh hi)
    (h : Body t is)
    (hok : validateJSONUnicodeEscapes true true ('u' :: a :: b :: c :: d :: (t ++ '"' :: rest)) = .ok ()) :
    ∃ lo t' is', isLow lo ∧ is = .unit lo :: is' ∧ Body t' is' ∧ t'.length < t.length ∧
      validateJSONUnicodeEscapes true false (t' ++ '"' :: rest) = .ok () := by
  rw [validateJSONUnicodeEscapes.eq_def] at hok
  simp only [Bool.not_true, Bool.false_eq_true, if_false, if_true, ne_eq, not_true_eq_false, hx, hhigh] at hok
  cases h with
  | nil =>
    split at hok
    · rename_i heq
      cases heq
      simp at hok
    · cases hok
  | raw hq hb hc ht =>
    split at hok
    · rename_i heq
      obtain ⟨rfl, -⟩ := List.cons.inj heq
      simp [hb] at hok
    · cases hok
  | @esc e c t is he ht =>
    have hu : e ≠ 'u' := by
      rintro rfl
      simp [simpleEscape] at he
    split at hok
    · rename_i heq
      obtain ⟨-, heq⟩ := List.cons.inj heq
      obtain ⟨rfl, -⟩ := List.cons.inj heq
      simp [hu] at hok
    · cases hok
  | @uni a' b' c' d' lo t is hlo ht =>
    simp only [cons_append, hlo, true_and] at hok
    split_ifs at hok with hlow
    exact ⟨lo, t, is, hlow, rfl, ht, by simp only [length_cons]; omega, hok⟩

theorem paired_of_escapes {n : Nat} {b : List Char} (hn : b.length ≤ n) (h : Body b is)
    (hok : validateJSONUnicodeEscapes true false (b ++ '"' :: rest) = .ok ()) :
    Paired is ∧ validateJSONUnicodeEscapes false false rest = .ok () := by
  -- one escape can take two units off, so the induction is on the length
  induction n generalizing b is with
  | zero =>
    obtain rfl := eq_nil_of_length_eq_zero (Nat.le_zero.mp hn)
    cases h
    rw [validateJSONUnicodeEscapes.eq_def] at hok
    exact ⟨.nil, by simpa using hok⟩
  | succ n ih =>
    cases h with
    | nil =>
      rw [validateJSONUnicodeEscapes.eq_def] at hok
      exact ⟨.nil, by simpa using hok⟩
    | raw hq hb hc ht =>
      rw [validateJSONUnicodeEscapes.eq_def] at hok
      obtain ⟨hpaired, hrest⟩ :=
        ih (Nat.le_of_succ_le_succ hn) ht (by simpa [hb, bne_iff_ne.mpr hq] using hok)
      exact ⟨.whole trivial hpaired, hrest⟩
    | @esc e c t is he ht =>
      have hu : e ≠ 'u' := by
        rintro rfl
        simp [simpleEscape] at he
      rw [cons_append, validateJSONUnicodeEscapes.eq_def] at hok
      simp only [Bool.not_true, Bool.false_eq_true, if_false] at hok
      rw [validateJSONUnicodeEscapes.eq_def] at hok
      simp only [length_cons] at hn
      obtain ⟨hpaired, hrest⟩ := ih (by omega) ht (by simpa [hu] using hok)
      exact ⟨.whole trivial hpaired, hrest⟩
    | @uni a b c d m t is hx ht =>
      simp only [length_cons] at hn
      simp only [cons_append] at hok
      rw [validateJSONUnicodeEscapes.eq_def] at hok
      simp only [Bool.not_true, Bool.false_eq_true, if_false] at hok
      by_cases hhigh : isHigh m
      · obtain ⟨lo, t', is', hlow, rfl, ht', hlen, hok'⟩ := escapes_high hx hhigh ht hok
        obtain ⟨hpaired, hrest⟩ := ih (by omega) ht' hok'
        exact ⟨.pair hhigh hlow hpaired, hrest⟩
      · rw [validateJSONUnicodeEscapes.eq_def] at hok
        simp only [Bool.not_true, Bool.false_eq_true, if_false, if_true, ne_eq, not_true_eq_false, hx] at hok
        split_ifs at hok with hlow
        obtain ⟨hpaired, hrest⟩ := ih (by omega) ht hok
        exact ⟨.whole ⟨Bool.eq_false_iff.mpr hhigh, Bool.eq_false_iff.mpr hlow⟩ hpaired, hrest⟩

theorem literals_of_escapes (h : Literals (fun _ => True) x)
    (hok : validateJSONUnicodeEscapes false false x = .ok ()) : Literals Paired x := by
  induction h with
  | nil => exact .nil
  | plain hc _ ih =>
    refine .plain hc (ih ?_)
    rw [validateJSONUnicodeEscapes.eq_def] at hok
    simpa [beq_eq_false_iff_ne.mpr hc] using hok
  | literal hb _ _ ih =>
    rw [validateJSONUnicodeEscapes.eq_def] at hok
    obtain ⟨hpaired, hrest⟩ := paired_of_escapes (le_refl _) hb (by simpa using hok)
    exact .literal hb hpaired (ih hrest)

/-! ### CanonicalizeV1 -/

/-- An accepted document is in the stated profile exactly when none of its object keys
contains U+0000; everything else of the profile is enforced. -/
theorem canonicalizeV1_profile {x cx : Bytes} (h : canonicalizeV1 x = .ok cx) {text : List Char}
    (htext : Utf8.decode? x = some text) {v : Value} (hv : Document v text) :
    StatedProfile text v ↔ KeysWithoutNul v := by
  refine ⟨StatedProfile.keys, fun hkeys => ?_⟩
  unfold canonicalizeV1 at h
  rw [htext] at h
  simp only at h
  split at h
  · cases h
  rename_i hescapes
  split at h
  · cases h
  rename_i w hw
  obtain rfl := eq_of_parseDocument hw hv
  obtain ⟨-, hprofile, -⟩ := parseDocument_eq_ok.mp hw
  exact
    { keys := hkeys
      strings := fun s hs => hprofile.within hs
      surrogates := literals_of_escapes (literals_document hv) hescapes
      distinct := fun ms hms => (hprofile.within hms).1
      numbers := fun lit hlit => canonicalLiteral_of_canonicalJSONNumber (hprofile.within hlit) }

def pairedDocument : Bytes := bytesOf "\x7b\"a\":[-0.5,\"\\ud83d\\ude00\"]\x7d"

def pairedText : List Char := charsOf "\x7b\"a\":[-0.5,\"\\ud83d\\ude00\"]\x7d"

def pairedValue : Value := .obj [(['a'], .arr [.num ['-', '0', '.', '5'], .str [Char.ofNat 0x1F600]])]

theorem canonicalizeV1_profile_paired :
    StatedProfile pairedText pairedValue ↔ KeysWithoutNul pairedValue := by
  have hparse : parseDocument pairedText = .ok pairedValue := by rfl
  have hok : canonicalizeV1 pairedDocument =
    .ok (Utf8.encode (emitCanonicalJSONValue pairedValue)) := by decide +kernel
  exact canonicalizeV1_profile hok (by decide +kernel) (parseDocument_eq_ok.mp hparse).1

def nulKeyDocument : Bytes := bytesOf "\x7b\"\\u0000\":1\x7d"

theorem canonicalizeV1_accepts_nul_key : canonicalizeV1 nulKeyDocument = .ok nulKeyDocument ∧
      ∀ text v, Utf8.decode? nulKeyDocument = some text → Document v text → ¬StatedProfile text v := by
  refine ⟨by decide +kernel, ?_⟩
  intro text v htext hv hprofile
  cases htext
  rw [eq_of_parseDocument (v := .obj [(['\x00'], .num ['1'])]) rfl hv] at hprofile
  exact hprofile.keys _ (.refl _) _ mem_cons_self (mem_singleton.mpr rfl)

end AiiOs.CanonicalJson
