import AiiOs.Lib.Json.Literals
import AiiOs.Lib.Text

/-! Strings as Go's encoding/json writes them with HTML escaping off, and the
string literals they are. -/

namespace Lib.Json
open List

/-- The shortest escape of a rune that cannot stand in a literal as it is. -/
def escapeRune (c : Char) : List Char := if c = '"' then ['\\', '"']
  else if c = '\\' then ['\\', '\\']
  else if c = '\x08' then ['\\', 'b']
  else if c = '\x0c' then ['\\', 'f']
  else if c = '\n' then ['\\', 'n']
  else if c = '\r' then ['\\', 'r']
  else if c = '\t' then ['\\', 't']
  else if c.toNat < 0x20 then
    ['\\', 'u', hexDigit (c.toNat / 4096 % 16), hexDigit (c.toNat / 256 % 16),
      hexDigit (c.toNat / 16 % 16), hexDigit (c.toNat % 16)]
  else [c]

/-- The encoder also escapes the two line separators, and names U+FFFD for a byte
outside UTF-8. -/
def encodeRune : Option Char → List Char
  | none => ['\\', 'u', 'f', 'f', 'f', 'd']
  | some c =>
    if c = Char.ofNat 0x2028 then ['\\', 'u', '2', '0', '2', '8']
    else if c = Char.ofNat 0x2029 then ['\\', 'u', '2', '0', '2', '9']
    else escapeRune c

def encodeString (s : Bytes) : List Char := '"' :: ((Utf8.runes s).flatMap encodeRune ++ ['"'])

/-! ### The units of an encoded string -/

def isShort (c : Char) : Bool :=
  c == '"' || c == '\\' || c == '\x08' || c == '\x0c' || c == '\n' || c == '\r' || c == '\t'

def escapeItem (c : Char) : Item := if !isShort c && c.toNat < 0x20 then .unit c.toNat else .chr c

def encodeItem : Option Char → Item
  | none => .unit 0xFFFD
  | some c =>
    if c = Char.ofNat 0x2028 then .unit 0x2028
    else if c = Char.ofNat 0x2029 then .unit 0x2029
    else escapeItem c

variable {n : Nat} {is : List Item} {t : List Char}

theorem hexValue_hexDigit (h : n < 16) : hexValue (hexDigit n) = some n := by
  revert n
  decide

theorem hex4_hexDigit (h : n < 65536) :
    hex4 (hexDigit (n / 4096 % 16)) (hexDigit (n / 256 % 16)) (hexDigit (n / 16 % 16))
      (hexDigit (n % 16)) = some n := by
  simp only [hex4, hexValue_hexDigit (Nat.mod_lt _ (by decide : 0 < 16))]
  congr 1
  omega

theorem body_escapeRune (c : Char) {t : List Char} {is : List Item} (h : Body t is) :
    Body (escapeRune c ++ t) (escapeItem c :: is) := by
  unfold escapeRune
  split_ifs with h1 h2 h3 h4 h5 h6 h7 h8
  · subst h1; exact .esc (by decide) h
  · subst h2; exact .esc (by decide) h
  · subst h3; exact .esc (by decide) h
  · subst h4; exact .esc (by decide) h
  · subst h5; exact .esc (by decide) h
  · subst h6; exact .esc (by decide) h
  · subst h7; exact .esc (by decide) h
  · have hs : escapeItem c = .unit c.toNat := by simp [escapeItem, isShort, *]
    rw [hs]
    exact .uni (hex4_hexDigit (by omega)) h
  · have hs : escapeItem c = .chr c := by simp [escapeItem, h8]
    rw [hs]
    exact .raw h1 h2 (by omega) h

theorem body_encodeRune (r : Option Char) {t : List Char} {is : List Item} (h : Body t is) :
    Body (encodeRune r ++ t) (encodeItem r :: is) := by
  cases r with
  | none => exact .uni (by decide) h
  | some c =>
    rw [encodeRune, encodeItem]
    split_ifs
    · exact .uni (by decide) h
    · exact .uni (by decide) h
    · exact body_escapeRune c h

theorem body_flatMap {α : Type} {f : α → List Char} {g : α → Item}
    (h : ∀ a {t : List Char} {is : List Item}, Body t is → Body (f a ++ t) (g a :: is))
    (l : List α) : Body (l.flatMap f) (l.map g) := by
  induction l with
  | nil => exact .nil
  | cons a l ih => exact h a ih

def Item.whole : Item → Prop
  | .chr _ => True
  | .unit n => isHigh n = false ∧ isLow n = false

theorem whole_escapeItem (c : Char) : (escapeItem c).whole := by
  unfold escapeItem
  split_ifs with h
  · simp only [Bool.and_eq_true, decide_eq_true_eq] at h
    simp only [Item.whole, isHigh, isLow, Bool.and_eq_false_iff, decide_eq_false_iff_not]
    omega
  · trivial

theorem whole_encodeItem (r : Option Char) : (encodeItem r).whole := by
  cases r with
  | none => exact ⟨by decide, by decide⟩
  | some c =>
    rw [encodeItem]
    split_ifs
    · exact ⟨by decide, by decide⟩
    · exact ⟨by decide, by decide⟩
    · exact whole_escapeItem c

def Item.rune : Item → Char
  | .chr c => c
  | .unit n => unitRune n

theorem itemsRunes_whole (h : ∀ i ∈ is, i.whole) : itemsRunes is = is.map Item.rune := by
  induction is with
  | nil => rfl
  | cons i is ih =>
    rw [forall_mem_cons] at h
    cases i with
    | chr c => rw [itemsRunes, ih h.2]; rfl
    | unit n =>
      cases is with
      | nil => rfl
      | cons j is =>
        cases j with
        | chr c => rw [itemsRunes, ih h.2]; rfl; nofun
        | unit m =>
          rw [itemsRunes, h.1.1, ih h.2]
          rfl

theorem rune_escapeItem (c : Char) : (escapeItem c).rune = c := by
  have hw := whole_escapeItem c
  unfold escapeItem at hw ⊢
  split_ifs at hw ⊢
  · simp only [Item.rune, unitRune, hw.1, hw.2, Bool.or_self, Bool.false_eq_true, if_false, Char.ofNat_toNat]
  · rfl

theorem rune_encodeItem (r : Option Char) : (encodeItem r).rune = r.getD (Char.ofNat 0xFFFD) := by
  cases r with
  | none => decide
  | some c =>
    rw [encodeItem]
    split_ifs with h1 h2
    · rw [h1]; decide
    · rw [h2]; decide
    · exact rune_escapeItem c

theorem str_escape (s : List Char) : Str s ('"' :: (s.flatMap escapeRune ++ ['"'])) := by
  refine ⟨_, s.map escapeItem, body_flatMap body_escapeRune s, ?_, rfl⟩
  rw [itemsRunes_whole (List.forall_mem_map.mpr fun c _ => whole_escapeItem c), List.map_map]
  exact (map_id'' (rune_escapeItem ·) s).symm

theorem body_encode (s : Bytes) : Body ((Utf8.runes s).flatMap encodeRune) ((Utf8.runes s).map encodeItem) :=
  body_flatMap body_encodeRune _

theorem str_encodeString (s : Bytes) :
    Str ((Utf8.runes s).map fun r => r.getD (Char.ofNat 0xFFFD)) (encodeString s) := by
  refine ⟨_, _, body_encode s, ?_, rfl⟩
  rw [itemsRunes_whole (List.forall_mem_map.mpr fun r _ => whole_encodeItem r), List.map_map]
  exact (map_congr_left fun r _ => rune_encodeItem r).symm

/-! ### Compact texts -/

/-- A text of plain characters and string literals that name no half of a pair. -/
inductive Compact : List Char → Prop
  | nil : Compact []
  | plain {c : Char} {t : List Char} : c ≠ '"' → c ≠ '\n' → Compact t → Compact (c :: t)
  | literal {b t : List Char} {is : List Item} : Body b is → (∀ i ∈ is, i.whole) → Compact t →
      Compact ('"' :: (b ++ '"' :: t))

theorem Compact.append {t' : List Char} (h : Compact t) (h' : Compact t') : Compact (t ++ t') := by
  induction h with
  | nil => exact h'
  | plain hc hn _ ih => exact .plain hc hn ih
  | literal hb hw _ ih =>
    rw [cons_append, append_assoc]
    exact .literal hb hw ih

theorem compact_of_ne (h : ∀ c ∈ t, c ≠ '"' ∧ c ≠ '\n') : Compact t := by
  induction t with
  | nil => exact .nil
  | cons c t ih =>
    rw [forall_mem_cons] at h
    exact .plain h.1.1 h.1.2 (ih h.2)

theorem compact_separator (first : Bool) : Compact (if first then [] else [',']) := by
  cases first
  · exact .plain (by decide) (by decide) .nil
  · exact .nil

theorem compact_escape (s : List Char) : Compact ('"' :: (s.flatMap escapeRune ++ ['"'])) :=
  .literal (body_flatMap body_escapeRune s) (List.forall_mem_map.mpr fun c _ => whole_escapeItem c) .nil

theorem compact_encodeString (s : Bytes) : Compact (encodeString s) :=
  .literal (body_encode s) (List.forall_mem_map.mpr fun r _ => whole_encodeItem r) .nil

theorem digits_plain {ds : List Char} (h : Digits ds) : ∀ c ∈ ds, c ≠ '"' ∧ c ≠ '\n' :=
  fun c hc => ⟨digit_ne (h c hc) (by decide), digit_ne (h c hc) (by decide)⟩

theorem number_plain {lit : List Char} (h : Number lit) : ∀ c ∈ lit, c ≠ '"' ∧ c ≠ '\n' := by
  obtain ⟨sgn, i, f, e, hs, hi, hf, he, rfl⟩ := h
  simp only [forall_mem_append]
  refine ⟨?_, ?_, ?_, ?_⟩
  · rcases hs with rfl | rfl <;> simp
  · cases hi with
    | zero => simp
    | pos hd _ hds =>
      exact forall_mem_cons.mpr ⟨⟨digit_ne hd (by decide), digit_ne hd (by decide)⟩, digits_plain hds⟩
  · cases hf with
    | none => simp
    | some _ hds => exact forall_mem_cons.mpr ⟨by decide, digits_plain hds⟩
  · cases he with
    | none => simp
    | some he hs _ hds =>
      refine forall_mem_cons.mpr ⟨?_, forall_mem_append.mpr ⟨?_, digits_plain hds⟩⟩
      · rcases he with rfl | rfl <;> decide
      · rcases hs with rfl | rfl | rfl <;> simp

theorem body_no_newline (h : Body t is) : '\n' ∉ t := by
  have hhex : ∀ {a : Char} {n : Nat}, hexValue a = some n → '\n' ≠ a := fun h => by
    rintro rfl
    simp [hexValue] at h
  induction h with
  | nil => simp
  | @raw c t is _ _ hc _ ih =>
    refine not_mem_cons_of_ne_of_not_mem ?_ ih
    rintro rfl
    exact absurd hc (by decide)
  | esc he _ ih =>
    refine not_mem_cons_of_ne_of_not_mem (by decide) (not_mem_cons_of_ne_of_not_mem ?_ ih)
    rintro rfl
    simp [simpleEscape] at he
  | uni hx _ ih =>
    unfold hex4 at hx
    split at hx
    · rename_i ha hb hc hd
      simp only [mem_cons, not_or]
      exact ⟨by decide, by decide, hhex ha, hhex hb, hhex hc, hhex hd, ih⟩
    · cases hx

theorem Compact.no_newline (h : Compact t) : '\n' ∉ t := by
  induction h with
  | nil => simp
  | plain _ hn _ ih => exact not_mem_cons_of_ne_of_not_mem (.symm hn) ih
  | literal hb _ _ ih =>
    simp only [mem_cons, mem_append, not_or]
    exact ⟨by decide, body_no_newline hb, by decide, ih⟩

end Lib.Json
