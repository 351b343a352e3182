import AiiOs.Lib.Utf8

/-! Numbers, byte strings and times as Go prints them: `strconv`, `encoding/hex`,
`encoding/base64` and `time.RFC3339Nano` in UTC. -/

namespace Lib
open List

def bytesOf (s : String) : Bytes := s.toByteArray.data.toList

def charsOf (s : String) : List Char := (bytesOf s).map fun b => Char.ofNat b.toNat

def hexDigit (n : Nat) : Char := if n < 10 then Char.ofNat (48 + n) else Char.ofNat (87 + n)

def hexEncode (bs : Bytes) : List Char :=
  bs.flatMap fun b => [hexDigit (b.toNat / 16), hexDigit (b.toNat % 16)]

/-- What stands before the first of a separator is told from what stands behind it. -/
theorem append_sep_inj {α : Type} {s s' r r' : List α} {a : α} (hs : a ∉ s) (hs' : a ∉ s')
    (h : s ++ a :: r = s' ++ a :: r') : s = s' ∧ r = r' := by
  rcases append_eq_append_iff.mp h with ⟨l, rfl, hl⟩ | ⟨l, rfl, hl⟩ <;> cases l <;> simp_all

variable {n : Nat}

theorem hexDigit_injOn {m : Nat} (hm : m < 16) (hn : n < 16) (h : hexDigit m = hexDigit n) : m = n := by
  have key : ∀ a b : Fin 16, hexDigit a = hexDigit b → a = b := by decide
  exact congrArg Fin.val (key ⟨m, hm⟩ ⟨n, hn⟩ h)

theorem hexEncode_injective : Function.Injective hexEncode := by
  intro as bs h
  induction as generalizing bs with
  | nil =>
    cases bs with
    | nil => rfl
    | cons b bs => cases h
  | cons a as ih =>
    cases bs with
    | nil => cases h
    | cons b bs =>
      simp only [hexEncode, flatMap_cons, cons_append, List.cons.injEq] at h
      obtain ⟨hhigh, hlow, hrest⟩ := h
      have ha := a.toNat_lt
      have hb := b.toNat_lt
      have hdiv := hexDigit_injOn (by omega) (by omega) hhigh
      have hmod := hexDigit_injOn (by omega) (by omega) hlow
      have hab : a = b := UInt8.toNat_inj.mp (by omega)
      rw [hab, ih hrest]

/-! ### Decimal -/

def decimalFuel : Nat → Nat → List Char
  | 0, n => [hexDigit (n % 10)]
  | f + 1, n => if n < 10 then [hexDigit n] else decimalFuel f (n / 10) ++ [hexDigit (n % 10)]

def decimal (n : Nat) : List Char := decimalFuel n n

def decimalInt (i : Int) : List Char := if i < 0 then '-' :: decimal i.natAbs else decimal i.natAbs

def natOfDigits (ds : List Char) : Nat := ds.foldl (fun n c => n * 10 + (c.toNat - '0'.toNat)) 0

/-- `n` in at least `width` digits. -/
def padded (width n : Nat) : List Char :=
  List.replicate (width - (decimal n).length) '0' ++ decimal n

/-! ### Base64, the standard alphabet with padding -/

def base64Digit (n : Nat) : Char := if n < 26 then Char.ofNat (65 + n)
  else if n < 52 then Char.ofNat (71 + n)
  else if n < 62 then Char.ofNat (n - 4)
  else if n = 62 then '+'
  else '/'

def base64Value (c : Char) : Option Nat := if 65 ≤ c.toNat ∧ c.toNat ≤ 90 then some (c.toNat - 65)
  else if 97 ≤ c.toNat ∧ c.toNat ≤ 122 then some (c.toNat - 71)
  else if 48 ≤ c.toNat ∧ c.toNat ≤ 57 then some (c.toNat + 4)
  else if c = '+' then some 62
  else if c = '/' then some 63
  else none

def base64Encode : Bytes → List Char
  | [] => []
  | [a] => [base64Digit (a.toNat / 4), base64Digit (a.toNat % 4 * 16), '=', '=']
  | [a, b] =>
    [base64Digit (a.toNat / 4), base64Digit (a.toNat % 4 * 16 + b.toNat / 16),
      base64Digit (b.toNat % 16 * 4), '=']
  | a :: b :: c :: rest =>
    base64Digit (a.toNat / 4) :: base64Digit (a.toNat % 4 * 16 + b.toNat / 16) ::
      base64Digit (b.toNat % 16 * 4 + c.toNat / 64) :: base64Digit (c.toNat % 64) ::
      base64Encode rest

/-- Groups of four symbols; padding only closes the last one. -/
def base64Quanta : List Char → Option Bytes
  | [] => some []
  | a :: b :: c :: d :: rest =>
    match base64Value a, base64Value b with
    | some x, some y =>
      match base64Value c, base64Value d with
      | some z, some w =>
        (base64Quanta rest).map fun bs => UInt8.ofNat (x * 4 + y / 16) ::
          UInt8.ofNat (y % 16 * 16 + z / 4) :: UInt8.ofNat (z % 4 * 64 + w) :: bs
      | some z, none =>
        if d = '=' ∧ rest = [] then
          some [UInt8.ofNat (x * 4 + y / 16), UInt8.ofNat (y % 16 * 16 + z / 4)]
        else none
      | none, _ =>
        if c = '=' ∧ d = '=' ∧ rest = [] then some [UInt8.ofNat (x * 4 + y / 16)] else none
    | _, _ => none
  | _ => none

/-- Line breaks are skipped wherever they stand. -/
def base64Decode (s : List Char) : Option Bytes :=
  base64Quanta (s.filter fun c => !(c == '\n' || c == '\r'))

/-! ### Times -/

structure Time where
  year : Nat
  month : Nat
  day : Nat
  hour : Nat
  minute : Nat
  second : Nat
  nano : Nat
  deriving DecidableEq, Repr

def nanoText (n : Nat) : List Char :=
  if n = 0 then [] else '.' :: ((padded 9 n).reverse.dropWhile (· == '0')).reverse

def rfc3339Nano (t : Time) : List Char :=
  padded 4 t.year ++ '-' :: (padded 2 t.month ++ '-' :: (padded 2 t.day ++ 'T' ::
    (padded 2 t.hour ++ ':' :: (padded 2 t.minute ++ ':' :: (padded 2 t.second ++
      (nanoText t.nano ++ ['Z']))))))

/-! ### Printed characters -/

def Printable (c : Char) : Prop := 0x20 ≤ c.toNat ∧ c.toNat < 0x7F

instance (c : Char) : Decidable (Printable c) := inferInstanceAs (Decidable (_ ∧ _))

theorem printable_hexDigit (h : n < 16) : Printable (hexDigit n) := by
  revert n
  decide

theorem printable_base64Digit (h : n < 64) : Printable (base64Digit n) := by
  revert n
  decide

theorem printable_hexEncode (bs : Bytes) : ∀ c ∈ hexEncode bs, Printable c := by
  intro c hc
  obtain ⟨b, -, hb⟩ := mem_flatMap.mp hc
  have := b.toNat_lt
  simp only [mem_cons, not_mem_nil, or_false] at hb
  rcases hb with rfl | rfl
  · exact printable_hexDigit (by omega)
  · exact printable_hexDigit (by omega)

theorem printable_base64Encode (bs : Bytes) : ∀ c ∈ base64Encode bs, Printable c := by
  have byte : ∀ b : UInt8, b.toNat < 256 := (·.toNat_lt)
  induction bs using base64Encode.induct with
  | case1 => simp [base64Encode]
  | case2 a =>
    have := byte a
    simp only [base64Encode, forall_mem_cons]
    exact ⟨printable_base64Digit (by omega), printable_base64Digit (by omega), by decide, by decide, by simp⟩
  | case3 a b =>
    have := byte a
    have := byte b
    simp only [base64Encode, forall_mem_cons]
    exact ⟨printable_base64Digit (by omega), printable_base64Digit (by omega),
      printable_base64Digit (by omega), by decide, by simp⟩
  | case4 a b c rest ih =>
    have := byte a
    have := byte b
    have := byte c
    simp only [base64Encode, forall_mem_cons]
    exact ⟨printable_base64Digit (by omega), printable_base64Digit (by omega),
      printable_base64Digit (by omega), printable_base64Digit (by omega), ih⟩

theorem isDigit_hexDigit (h : n < 10) : (hexDigit n).isDigit := by
  revert n
  decide

theorem decimalFuel_digits (f n : Nat) : ∀ c ∈ decimalFuel f n, c.isDigit := by
  induction f generalizing n with
  | zero =>
    intro c hc
    rw [decimalFuel, mem_singleton] at hc
    exact hc ▸ isDigit_hexDigit (Nat.mod_lt _ (by decide))
  | succ f ih =>
    intro c hc
    rw [decimalFuel] at hc
    split_ifs at hc with hn
    · rw [mem_singleton] at hc
      exact hc ▸ isDigit_hexDigit hn
    · rcases mem_append.mp hc with hc | hc
      · exact ih (n / 10) c hc
      · rw [mem_singleton] at hc
        exact hc ▸ isDigit_hexDigit (Nat.mod_lt _ (by decide))

theorem decimal_digits (n : Nat) : ∀ c ∈ decimal n, c.isDigit := decimalFuel_digits n n

theorem decimal_ne_nil (n : Nat) : decimal n ≠ [] := by
  rw [decimal]
  cases n with
  | zero => decide
  | succ n =>
    rw [decimalFuel]
    split_ifs <;> simp

theorem printable_of_isDigit {c : Char} (h : c.isDigit) : Printable c := by
  simp only [Char.isDigit, Bool.and_eq_true, decide_eq_true_eq] at h
  have hlow : 48 ≤ c.toNat := h.1
  have hhigh : c.toNat ≤ 57 := h.2
  exact ⟨by omega, by omega⟩

theorem printable_padded (width n : Nat) : ∀ c ∈ padded width n, Printable c := by
  intro c hc
  rcases mem_append.mp hc with hc | hc
  · rw [eq_of_mem_replicate hc]
    decide
  · exact printable_of_isDigit (decimal_digits n c hc)

theorem printable_nanoText (n : Nat) : ∀ c ∈ nanoText n, Printable c := by
  intro c hc
  rw [nanoText] at hc
  split_ifs at hc
  · cases hc
  · rcases mem_cons.mp hc with rfl | hc
    · decide
    · have hmem := (dropWhile_suffix _).mem (mem_reverse.mp hc)
      exact printable_padded 9 n c (mem_reverse.mp hmem)

theorem printable_rfc3339Nano (t : Time) : ∀ c ∈ rfc3339Nano t, Printable c := by
  simp only [rfc3339Nano, forall_mem_append, forall_mem_cons]
  exact ⟨printable_padded _ _, by decide, printable_padded _ _, by decide, printable_padded _ _,
    by decide, printable_padded _ _, by decide, printable_padded _ _, by decide,
    printable_padded _ _, printable_nanoText _, by decide, by simp⟩

theorem natOfDigits_append (ds : List Char) (d : Char) :
    natOfDigits (ds ++ [d]) = natOfDigits ds * 10 + (d.toNat - '0'.toNat) := by
  rw [natOfDigits, foldl_append]
  rfl

theorem toNat_hexDigit (h : n < 10) : (hexDigit n).toNat - '0'.toNat = n := by
  revert n
  decide

theorem natOfDigits_decimalFuel (f n : Nat) (h : n ≤ f) : natOfDigits (decimalFuel f n) = n := by
  induction f generalizing n with
  | zero =>
    obtain rfl : n = 0 := by omega
    rfl
  | succ f ih =>
    rw [decimalFuel]
    split_ifs with hn
    · rw [← nil_append [hexDigit n], natOfDigits_append, toNat_hexDigit hn]
      exact zero_add n
    · rw [natOfDigits_append, ih (n / 10) (by omega), toNat_hexDigit (by omega)]
      omega

theorem natOfDigits_decimal (n : Nat) : natOfDigits (decimal n) = n := natOfDigits_decimalFuel n n (le_refl n)

theorem decimalFuel_head (f n : Nat) (h : n ≤ f) (hn : n ≠ 0) :
    ∃ c cs, decimalFuel f n = c :: cs ∧ c.isDigit ∧ c ≠ '0' := by
  induction f generalizing n with
  | zero => omega
  | succ f ih =>
    rw [decimalFuel]
    split_ifs with h10
    · refine ⟨hexDigit n, [], rfl, isDigit_hexDigit h10, fun h0 => hn ?_⟩
      have := toNat_hexDigit h10
      rw [h0] at this
      exact this.symm
    · obtain ⟨c, cs, he, hc⟩ := ih (n / 10) (by omega) (by omega)
      exact ⟨c, cs ++ [hexDigit (n % 10)], by rw [he]; rfl, hc⟩

/-! ### Base64 read back -/

theorem base64Value_base64Digit (h : n < 64) : base64Value (base64Digit n) = some n := by
  revert n
  decide

theorem ofNat_eq {n : Nat} {b : UInt8} (h : n = b.toNat) : UInt8.ofNat n = b := by
  rw [h, UInt8.ofNat_toNat]

theorem base64Quanta_base64Encode (bs : Bytes) : base64Quanta (base64Encode bs) = some bs := by
  have byte : ∀ b : UInt8, b.toNat < 256 := (·.toNat_lt)
  have hpad : base64Value '=' = none := rfl
  induction bs using base64Encode.induct with
  | case1 => rfl
  | case2 a =>
    have := byte a
    simp only [base64Encode, base64Quanta, hpad,
      base64Value_base64Digit (show a.toNat / 4 < 64 by omega),
      base64Value_base64Digit (show a.toNat % 4 * 16 < 64 by omega)]
    rw [if_pos ⟨trivial, trivial, trivial⟩, @ofNat_eq _ a (by omega)]
  | case3 a b =>
    have := byte a
    have := byte b
    simp only [base64Encode, base64Quanta, hpad,
      base64Value_base64Digit (show a.toNat / 4 < 64 by omega),
      base64Value_base64Digit (show a.toNat % 4 * 16 + b.toNat / 16 < 64 by omega),
      base64Value_base64Digit (show b.toNat % 16 * 4 < 64 by omega)]
    rw [if_pos ⟨trivial, trivial⟩, @ofNat_eq _ a (by omega), @ofNat_eq _ b (by omega)]
  | case4 a b c rest ih =>
    have := byte a
    have := byte b
    have := byte c
    simp only [base64Encode, base64Quanta, ih, Option.map_some,
      base64Value_base64Digit (show a.toNat / 4 < 64 by omega),
      base64Value_base64Digit (show a.toNat % 4 * 16 + b.toNat / 16 < 64 by omega),
      base64Value_base64Digit (show b.toNat % 16 * 4 + c.toNat / 64 < 64 by omega),
      base64Value_base64Digit (show c.toNat % 64 < 64 by omega)]
    rw [@ofNat_eq _ a (by omega), @ofNat_eq _ b (by omega), @ofNat_eq _ c (by omega)]

theorem base64Decode_base64Encode (bs : Bytes) : base64Decode (base64Encode bs) = some bs := by
  have hkeep : (base64Encode bs).filter (fun c => !(c == '\n' || c == '\r')) = base64Encode bs := by
    refine filter_eq_self.mpr fun c hc => ?_
    have hp := printable_base64Encode bs c hc
    have hn : c ≠ '\n' := by rintro rfl; exact absurd hp (by decide)
    have hr : c ≠ '\r' := by rintro rfl; exact absurd hp (by decide)
    simp [hn, hr]
  rw [base64Decode, hkeep, base64Quanta_base64Encode]

end Lib
