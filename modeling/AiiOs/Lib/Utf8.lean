import Mathlib.Algebra.Ring.Int.Defs
import Mathlib.Algebra.Ring.Nat
import Mathlib.Data.List.Basic

/-! UTF-8 over byte lists: the decoder that takes one rune off the front of a
byte string, the strict decoder of a whole string and the loop that replaces
every byte it cannot decode. Encoding is `String.utf8EncodeChar`. -/

namespace Lib
open List

abbrev Bytes := List UInt8

instance lawfulBEqText : LawfulBEq (List Char) := inferInstance

instance lawfulBEqBytes : LawfulBEq Bytes := inferInstance

namespace Utf8

def isTail (b : UInt8) : Prop := 0x80 ≤ b.toNat ∧ b.toNat ≤ 0xBF

instance (b : UInt8) : Decidable (isTail b) := inferInstanceAs (Decidable (_ ∧ _))

def encode (cs : List Char) : Bytes := cs.flatMap String.utf8EncodeChar

/-- One rune off the front, with the bytes after it; `none` on the empty string
and on a byte that starts no well-formed sequence. -/
def decodeRune : Bytes → Option (Char × Bytes)
  | [] => none
  | a :: rest =>
    if a.toNat ≤ 0x7F then some (Char.ofNat a.toNat, rest)
    else if 0xC2 ≤ a.toNat ∧ a.toNat ≤ 0xDF then
      match rest with
      | b :: rest =>
        if isTail b then some (Char.ofNat ((a.toNat - 0xC0) * 64 + (b.toNat - 0x80)), rest)
        else none
      | _ => none
    else if 0xE0 ≤ a.toNat ∧ a.toNat ≤ 0xEF then
      match rest with
      | b :: c :: rest =>
        let v := (a.toNat - 0xE0) * 4096 + (b.toNat - 0x80) * 64 + (c.toNat - 0x80)
        if isTail b ∧ isTail c ∧ 0x800 ≤ v ∧ ¬ (0xD800 ≤ v ∧ v ≤ 0xDFFF) then
          some (Char.ofNat v, rest)
        else none
      | _ => none
    else if 0xF0 ≤ a.toNat ∧ a.toNat ≤ 0xF4 then
      match rest with
      | b :: c :: d :: rest =>
        let v := (a.toNat - 0xF0) * 262144 + (b.toNat - 0x80) * 4096 + (c.toNat - 0x80) * 64 +
          (d.toNat - 0x80)
        if isTail b ∧ isTail c ∧ isTail d ∧ 0x10000 ≤ v ∧ v ≤ 0x10FFFF then
          some (Char.ofNat v, rest)
        else none
      | _ => none
    else none

def decodeFuel : Nat → Bytes → Option (List Char)
  | _, [] => some []
  | 0, _ :: _ => none
  | n + 1, bs@(_ :: _) =>
    match decodeRune bs with
    | some (c, rest) => (decodeFuel n rest).map (c :: ·)
    | none => none

def decode? (bs : Bytes) : Option (List Char) := decodeFuel bs.length bs

def runesFuel : Nat → Bytes → List (Option Char)
  | _, [] => []
  | 0, _ :: _ => []
  | n + 1, b :: bs =>
    match decodeRune (b :: bs) with
    | some (c, rest) => some c :: runesFuel n rest
    | none => none :: runesFuel n bs

/-- The runes a loop over the string visits: `none` for each byte outside a
well-formed sequence. -/
def runes (bs : Bytes) : List (Option Char) := runesFuel bs.length bs

variable {n : Nat} {c : Char} {bs : Bytes} {cs : List Char}

theorem char_eq_ofNat (h : n = c.toNat) : Char.ofNat n = c := by
  rw [h, Char.ofNat_toNat]

theorem toNat_ofNat_of_valid (h : n < 0xD800 ∨ (0xDFFF < n ∧ n < 0x110000)) : (Char.ofNat n).toNat = n := by
  have hv : n.isValidChar := h
  rw [Char.ofNat, dif_pos hv]
  exact UInt32.toNat_ofNatLT

theorem decodeRune_encodeChar (c : Char) (rest : Bytes) :
    decodeRune (String.utf8EncodeChar c ++ rest) = some (c, rest) := by
  have hr : c.toNat < 0xD800 ∨ (0xDFFF < c.toNat ∧ c.toNat < 0x110000) := c.valid
  have hv : c.val.toNat = c.toNat := rfl
  unfold String.utf8EncodeChar
  simp only [hv]
  split_ifs with h1 h2 h3
  · simp only [cons_append, nil_append, decodeRune, UInt8.toNat_ofNat']
    rw [if_pos (by omega), char_eq_ofNat (c := c) (by omega)]
  · simp only [cons_append, nil_append, decodeRune, isTail, UInt8.toNat_ofNat']
    rw [if_neg (by omega), if_pos (by omega), if_pos (by omega), char_eq_ofNat (c := c) (by omega)]
  · simp only [cons_append, nil_append, decodeRune, isTail, UInt8.toNat_ofNat']
    rw [if_neg (by omega), if_neg (by omega), if_pos (by omega), if_pos (by omega),
      char_eq_ofNat (c := c) (by omega)]
  · simp only [cons_append, nil_append, decodeRune, isTail, UInt8.toNat_ofNat']
    rw [if_neg (by omega), if_neg (by omega), if_neg (by omega), if_pos (by omega),
      if_pos (by omega), char_eq_ofNat (c := c) (by omega)]

theorem ofNat_eq_of_toNat {b : UInt8} (h : n = b.toNat) : UInt8.ofNat n = b := by
  rw [h, UInt8.ofNat_toNat]

theorem eq_of_decodeRune {rest : Bytes} (h : decodeRune bs = some (c, rest)) :
    bs = String.utf8EncodeChar c ++ rest := by
  unfold decodeRune at h
  split at h
  · simp at h
  rename_i a as
  split_ifs at h with h1 h2 h3 h4
  · obtain ⟨rfl, rfl⟩ := h
    have hn := toNat_ofNat_of_valid (n := a.toNat) (by omega)
    unfold String.utf8EncodeChar
    rw [show (Char.ofNat a.toNat).val.toNat = a.toNat from hn]
    rw [if_pos (by omega), UInt8.ofNat_toNat]
    rfl
  · split at h
    · rename_i b bs
      split_ifs at h with hb
      simp only [Option.some.injEq, Prod.mk.injEq] at h
      obtain ⟨rfl, rfl⟩ := h
      unfold isTail at hb
      have hn := toNat_ofNat_of_valid (n := (a.toNat - 0xC0) * 64 + (b.toNat - 0x80)) (by omega)
      unfold String.utf8EncodeChar
      rw [show (Char.ofNat _).val.toNat = _ from hn]
      rw [if_neg (by omega), if_pos (by omega), ofNat_eq_of_toNat (b := a) (by omega),
        ofNat_eq_of_toNat (b := b) (by omega)]
      rfl
    · simp at h
  · split at h
    · rename_i b c bs
      simp only at h
      split_ifs at h with hb
      simp only [Option.some.injEq, Prod.mk.injEq] at h
      obtain ⟨rfl, rfl⟩ := h
      unfold isTail at hb
      have hn := toNat_ofNat_of_valid
        (n := (a.toNat - 0xE0) * 4096 + (b.toNat - 0x80) * 64 + (c.toNat - 0x80)) (by omega)
      unfold String.utf8EncodeChar
      rw [show (Char.ofNat _).val.toNat = _ from hn]
      rw [if_neg (by omega), if_neg (by omega), if_pos (by omega),
        ofNat_eq_of_toNat (b := a) (by omega), ofNat_eq_of_toNat (b := b) (by omega),
        ofNat_eq_of_toNat (b := c) (by omega)]
      rfl
    · simp at h
  · split at h
    · rename_i b c d bs
      simp only at h
      split_ifs at h with hb
      simp only [Option.some.injEq, Prod.mk.injEq] at h
      obtain ⟨rfl, rfl⟩ := h
      unfold isTail at hb
      have hn := toNat_ofNat_of_valid (n := (a.toNat - 0xF0) * 262144 + (b.toNat - 0x80) * 4096 +
        (c.toNat - 0x80) * 64 + (d.toNat - 0x80)) (by omega)
      unfold String.utf8EncodeChar
      rw [show (Char.ofNat _).val.toNat = _ from hn]
      rw [if_neg (by omega), if_neg (by omega), if_neg (by omega),
        ofNat_eq_of_toNat (b := a) (by omega), ofNat_eq_of_toNat (b := b) (by omega),
        ofNat_eq_of_toNat (b := c) (by omega), ofNat_eq_of_toNat (b := d) (by omega)]
      rfl
    · simp at h

theorem utf8EncodeChar_ne_nil (c : Char) : String.utf8EncodeChar c ≠ [] := by
  intro h
  have hl := String.length_utf8EncodeChar c
  rw [h] at hl
  exact absurd hl.symm (Nat.pos_iff_ne_zero.mp c.utf8Size_pos)

@[simp] theorem encode_nil : encode [] = [] := rfl

@[simp] theorem encode_cons (c : Char) (cs : List Char) :
    encode (c :: cs) = String.utf8EncodeChar c ++ encode cs := rfl

@[simp] theorem encode_append (as bs : List Char) :
    encode (as ++ bs) = encode as ++ encode bs := flatMap_append

theorem toNat_eq_of_mem {b : UInt8} (h : b ∈ String.utf8EncodeChar c) (hb : b.toNat < 0x80) :
    c.toNat = b.toNat := by
  have hv : c.val.toNat = c.toNat := rfl
  unfold String.utf8EncodeChar at h
  simp only [hv] at h
  split_ifs at h <;> simp only [mem_cons, not_mem_nil, or_false] at h
  · subst h
    rw [UInt8.toNat_ofNat']
    omega
  all_goals
    rcases h with rfl | rfl | h <;> (try rcases h with rfl | h) <;> (try rcases h with rfl) <;>
      rw [UInt8.toNat_ofNat'] at hb <;> omega

theorem encode_ascii (h : c.toNat ≤ 0x7F) : String.utf8EncodeChar c = [UInt8.ofNat c.toNat] := by
  exact if_pos h

theorem notMem_encode (h : c.toNat < 0x80) (hc : c ∉ cs) : UInt8.ofNat c.toNat ∉ encode cs := by
  intro hm
  obtain ⟨d, hd, hb⟩ := mem_flatMap.mp hm
  have hval : (UInt8.ofNat c.toNat).toNat = c.toNat := by
    rw [UInt8.toNat_ofNat']
    omega
  have := toNat_eq_of_mem hb (by omega)
  rw [hval] at this
  exact hc (Char.toNat_inj.mp this ▸ hd)

theorem length_le_length_encode (cs : List Char) : cs.length ≤ (encode cs).length := by
  induction cs with
  | nil => exact le_refl _
  | cons c cs ih =>
    have hc := length_pos_iff.mpr (utf8EncodeChar_ne_nil c)
    simp only [encode_cons, length_cons, length_append]
    omega

theorem exists_encode_cons (c : Char) (cs : List Char) :
    ∃ b bs, encode (c :: cs) = b :: bs ∧ decodeRune (b :: bs) = some (c, encode cs) := by
  have hd := decodeRune_encodeChar c (encode cs)
  cases hb : String.utf8EncodeChar c ++ encode cs with
  | nil => simp at hb
  | cons b bs => exact ⟨b, bs, hb, hb ▸ hd⟩

theorem decodeFuel_encode (cs : List Char) (h : cs.length ≤ n) : decodeFuel n (encode cs) = some cs := by
  induction cs generalizing n with
  | nil => cases n <;> rfl
  | cons c cs ih =>
    obtain ⟨m, rfl⟩ := Nat.exists_eq_add_of_lt h
    obtain ⟨b, bs, hb, hd⟩ := exists_encode_cons c cs
    simp only [hb, decodeFuel, hd, ih (Nat.le_add_right ..), Option.map_some]

theorem decode?_encode (cs : List Char) : decode? (encode cs) = some cs :=
  decodeFuel_encode cs (length_le_length_encode cs)

theorem encode_injective : Function.Injective encode := by
  intro as bs h
  have hd := decode?_encode as
  rw [h, decode?_encode] at hd
  exact (Option.some.inj hd).symm

theorem encode_of_decodeFuel (h : decodeFuel n bs = some cs) : encode cs = bs := by
  induction n generalizing bs cs with
  | zero => cases bs <;> simp_all [decodeFuel]
  | succ n ih =>
    cases bs with
    | nil => simp_all [decodeFuel]
    | cons b bs =>
      simp only [decodeFuel] at h
      split at h
      · rename_i c rest hc
        obtain ⟨cs', hcs, rfl⟩ := Option.map_eq_some_iff.mp h
        rw [encode_cons, ih hcs, ← eq_of_decodeRune hc]
      · simp at h

theorem runesFuel_encode (cs : List Char) (h : cs.length ≤ n) : runesFuel n (encode cs) = cs.map some := by
  induction cs generalizing n with
  | nil => cases n <;> rfl
  | cons c cs ih =>
    obtain ⟨m, rfl⟩ := Nat.exists_eq_add_of_lt h
    obtain ⟨b, bs, hb, hd⟩ := exists_encode_cons c cs
    simp only [hb, runesFuel, hd, ih (Nat.le_add_right ..), map_cons]

@[simp] theorem runes_encode (cs : List Char) : runes (encode cs) = cs.map some :=
  runesFuel_encode cs (length_le_length_encode cs)

theorem encode_of_runesFuel (hn : bs.length ≤ n) (h : runesFuel n bs = cs.map some) : encode cs = bs := by
  induction n generalizing bs cs with
  | zero =>
    cases bs with
    | nil => cases cs <;> simp_all [runesFuel]
    | cons b bs => simp at hn
  | succ n ih =>
    cases bs with
    | nil => cases cs <;> simp_all [runesFuel]
    | cons b bs =>
      rw [runesFuel] at h
      split at h
      · rename_i c rest hd
        have heq := eq_of_decodeRune hd
        have hlen := congrArg List.length heq
        have hpos := length_pos_iff.mpr (utf8EncodeChar_ne_nil c)
        simp only [length_append] at hlen hn
        cases cs with
        | nil => simp at h
        | cons c' cs =>
          simp only [map_cons, List.cons.injEq, Option.some.injEq] at h
          rw [heq, encode_cons, ← h.1, ih (by omega) h.2]
      · cases cs <;> simp at h

end Utf8
end Lib
