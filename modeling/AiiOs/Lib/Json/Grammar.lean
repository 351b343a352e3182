import AiiOs.Lib.Utf8

/-! JSON texts as RFC 8259 writes them, over code points: the values a text can
spell, the spellings of each value and the value as data, in which an object is
a map from its keys. -/

namespace Lib.Json
open List

/-- A parsed value, members in the order of the text. -/
inductive Value
  | null
  | bool (b : Bool)
  | num (lit : List Char)
  | str (s : List Char)
  | arr (vs : List Value)
  | obj (ms : List (List Char × Value))
  deriving Inhabited

mutual

variable {P : Value → Prop}

theorem Value.induct (null : P .null) (bool : ∀ b, P (.bool b)) (num : ∀ lit, P (.num lit))
    (str : ∀ s, P (.str s)) (arr : ∀ vs, (∀ v ∈ vs, P v) → P (.arr vs))
    (obj : ∀ ms, (∀ m ∈ ms, P m.2) → P (.obj ms)) : ∀ v, P v
  | .null => null
  | .bool b => bool b
  | .num lit => num lit
  | .str s => str s
  | .arr vs => arr vs (elems_induct null bool num str arr obj vs)
  | .obj ms => obj ms (members_induct null bool num str arr obj ms)

theorem elems_induct (null : P .null) (bool : ∀ b, P (.bool b)) (num : ∀ lit, P (.num lit))
    (str : ∀ s, P (.str s)) (arr : ∀ vs, (∀ v ∈ vs, P v) → P (.arr vs))
    (obj : ∀ ms, (∀ m ∈ ms, P m.2) → P (.obj ms)) : ∀ (vs : List Value), ∀ v ∈ vs, P v
  | [] => fun _ h => absurd h (by simp)
  | v :: vs => forall_mem_cons.mpr ⟨Value.induct null bool num str arr obj v,
      elems_induct null bool num str arr obj vs⟩

theorem members_induct (null : P .null) (bool : ∀ b, P (.bool b)) (num : ∀ lit, P (.num lit))
    (str : ∀ s, P (.str s)) (arr : ∀ vs, (∀ v ∈ vs, P v) → P (.arr vs))
    (obj : ∀ ms, (∀ m ∈ ms, P m.2) → P (.obj ms)) :
    ∀ (ms : List (List Char × Value)), ∀ m ∈ ms, P m.2
  | [] => fun _ h => absurd h (by simp)
  | (_, v) :: ms => forall_mem_cons.mpr
      ⟨Value.induct null bool num str arr obj v, members_induct null bool num str arr obj ms⟩

end

/-- The value as data: objects are maps, numbers their literal text, strings code points. -/
inductive Data
  | null
  | bool (b : Bool)
  | num (lit : List Char)
  | str (s : List Char)
  | arr (ds : List Data)
  | obj (m : List Char → Option Data)

mutual

def Value.data : Value → Data
  | .null => .null
  | .bool b => .bool b
  | .num lit => .num lit
  | .str s => .str s
  | .arr vs => .arr (elemsData vs)
  | .obj ms => .obj (membersData ms)

def elemsData : List Value → List Data
  | [] => []
  | v :: vs => v.data :: elemsData vs

def membersData : List (List Char × Value) → List Char → Option Data
  | [], _ => none
  | (k, v) :: ms, key => if key = k then some v.data else membersData ms key

end

mutual

def Value.depth : Value → Nat
  | .arr vs => elemsDepth vs + 1
  | .obj ms => membersDepth ms + 1
  | _ => 0

def elemsDepth : List Value → Nat
  | [] => 0
  | v :: vs => max v.depth (elemsDepth vs)

def membersDepth : List (List Char × Value) → Nat
  | [] => 0
  | (_, v) :: ms => max v.depth (membersDepth ms)

end

theorem elemsData_eq_map (vs : List Value) : elemsData vs = vs.map Value.data := by
  induction vs with
  | nil => rfl
  | cons v vs ih => rw [elemsData, map_cons, ih]

variable {ms : List (List Char × Value)}

variable {key : List Char}

theorem membersData_eq_none : membersData ms key = none ↔ key ∉ ms.map Prod.fst := by
  induction ms with
  | nil => simp [membersData]
  | cons m ms ih => by_cases h : key = m.1 <;> simp [membersData, h, ih]

theorem mem_of_membersData {d : Data} (h : membersData ms key = some d) :
    ∃ v, (key, v) ∈ ms ∧ v.data = d := by
  induction ms with
  | nil => simp [membersData] at h
  | cons m ms ih =>
    obtain ⟨k, v⟩ := m
    rw [membersData] at h
    split_ifs at h with hk
    · exact ⟨v, by simp [hk], by simpa using h⟩
    · obtain ⟨w, hw, hd⟩ := ih h
      exact ⟨w, mem_cons_of_mem _ hw, hd⟩

theorem membersData_of_mem (hn : (ms.map Prod.fst).Nodup) {v : Value}
    (h : (key, v) ∈ ms) : membersData ms key = some v.data := by
  induction ms with
  | nil => simp at h
  | cons m ms ih =>
    rw [map_cons, nodup_cons] at hn
    rw [membersData]
    rcases mem_cons.mp h with heq | hm
    · cases heq
      rw [if_pos rfl]
    · rw [if_neg, ih hn.2 hm]
      rintro rfl
      exact hn.1 (List.mem_map.mpr ⟨_, hm, rfl⟩)

theorem membersData_congr {ms' : List (List Char × Value)} (hn' : (ms'.map Prod.fst).Nodup)
    (h : ∀ k v, (k, v) ∈ ms → ∃ w, (k, w) ∈ ms' ∧ w.data = v.data)
    (hk : ∀ k ∈ ms'.map Prod.fst, k ∈ ms.map Prod.fst) : membersData ms = membersData ms' := by
  funext key
  cases hd : membersData ms key with
  | none => exact (membersData_eq_none.mpr fun hm => membersData_eq_none.mp hd (hk key hm)).symm
  | some d =>
    obtain ⟨v, hv, rfl⟩ := mem_of_membersData hd
    obtain ⟨w, hw, he⟩ := h key v hv
    rw [membersData_of_mem hn' hw, he]

def isSpace (c : Char) : Bool := c == ' ' || c == '\t' || c == '\r' || c == '\n'

def Ws (w : List Char) : Prop := ∀ c ∈ w, isSpace c

/-! ### Strings -/

/-- What one unit of a string literal names: a character, or a UTF-16 code unit. -/
inductive Item
  | chr (c : Char)
  | unit (n : Nat)
  deriving DecidableEq, Repr

def simpleEscape (e : Char) : Option Char := if e = '"' then some '"'
  else if e = '\\' then some '\\'
  else if e = '/' then some '/'
  else if e = 'b' then some '\x08'
  else if e = 'f' then some '\x0c'
  else if e = 'n' then some '\n'
  else if e = 'r' then some '\r'
  else if e = 't' then some '\t'
  else none

def hexValue (c : Char) : Option Nat :=
  if '0'.toNat ≤ c.toNat ∧ c.toNat ≤ '9'.toNat then some (c.toNat - '0'.toNat)
  else if 'a'.toNat ≤ c.toNat ∧ c.toNat ≤ 'f'.toNat then some (c.toNat - 'a'.toNat + 10)
  else if 'A'.toNat ≤ c.toNat ∧ c.toNat ≤ 'F'.toNat then some (c.toNat - 'A'.toNat + 10)
  else none

def hex4 (a b c d : Char) : Option Nat := match hexValue a, hexValue b, hexValue c, hexValue d with
  | some a, some b, some c, some d => some (((a * 16 + b) * 16 + c) * 16 + d)
  | _, _, _, _ => none

def isHigh (n : Nat) : Bool := 0xD800 ≤ n && n ≤ 0xDBFF

def isLow (n : Nat) : Bool := 0xDC00 ≤ n && n ≤ 0xDFFF

def unitRune (n : Nat) : Char := if isHigh n || isLow n then Char.ofNat 0xFFFD else Char.ofNat n

def pairRune (hi lo : Nat) : Char := Char.ofNat (0x10000 + (hi - 0xD800) * 0x400 + (lo - 0xDC00))

def itemsRunes : List Item → List Char
  | [] => []
  | .chr c :: is => c :: itemsRunes is
  | .unit n :: .unit m :: is =>
    if isHigh n && isLow m then pairRune n m :: itemsRunes is
    else unitRune n :: itemsRunes (.unit m :: is)
  | .unit n :: is => unitRune n :: itemsRunes is

/-- The text between the quotes and the units it spells. -/
inductive Body : List Char → List Item → Prop
  | nil : Body [] []
  | raw {c : Char} {t : List Char} {is : List Item} : c ≠ '"' → c ≠ '\\' → 0x20 ≤ c.toNat →
      Body t is → Body (c :: t) (.chr c :: is)
  | esc {e c : Char} {t : List Char} {is : List Item} : simpleEscape e = some c →
      Body t is → Body ('\\' :: e :: t) (.chr c :: is)
  | uni {a b c d : Char} {n : Nat} {t : List Char} {is : List Item} : hex4 a b c d = some n →
      Body t is → Body ('\\' :: 'u' :: a :: b :: c :: d :: t) (.unit n :: is)

def Str (s t : List Char) : Prop :=
  ∃ body is, Body body is ∧ s = itemsRunes is ∧ t = '"' :: (body ++ ['"'])

/-! ### Numbers -/

def Digits (ds : List Char) : Prop := ∀ c ∈ ds, c.isDigit

inductive IntPart : List Char → Prop
  | zero : IntPart ['0']
  | pos {d : Char} {ds : List Char} : d.isDigit → d ≠ '0' → Digits ds → IntPart (d :: ds)

inductive FracPart : List Char → Prop
  | none : FracPart []
  | some {ds : List Char} : ds ≠ [] → Digits ds → FracPart ('.' :: ds)

inductive ExpPart : List Char → Prop
  | none : ExpPart []
  | some {e : Char} {sgn ds : List Char} : e = 'e' ∨ e = 'E' → sgn = [] ∨ sgn = ['+'] ∨ sgn = ['-'] →
      ds ≠ [] → Digits ds → ExpPart (e :: (sgn ++ ds))

def Number (lit : List Char) : Prop :=
  ∃ sgn i f e, (sgn = [] ∨ sgn = ['-']) ∧ IntPart i ∧ FracPart f ∧ ExpPart e ∧
    lit = sgn ++ (i ++ (f ++ e))

/-! ### Values -/

/-- What stands before an element or a member: spaces, and a comma unless it is the first. -/
def Lead (first : Bool) (l : List Char) : Prop :=
  if first then Ws l else ∃ w w', Ws w ∧ Ws w' ∧ l = w ++ ',' :: w'

mutual

/-- `Text v t`: the text `t` spells the value `v`, with no space around it. -/
def Text : Value → List Char → Prop
  | .null, t => t = ['n', 'u', 'l', 'l']
  | .bool b, t => t = if b then ['t', 'r', 'u', 'e'] else ['f', 'a', 'l', 's', 'e']
  | .num lit, t => t = lit ∧ Number lit
  | .str s, t => Str s t
  | .arr vs, t => ∃ r, Elems true vs r ∧ t = '[' :: r
  | .obj ms, t => ∃ r, Members true ms r ∧ t = '{' :: r

def Elems (first : Bool) : List Value → List Char → Prop
  | [], r => ∃ w, Ws w ∧ r = w ++ [']']
  | v :: vs, r => ∃ l t r', Lead first l ∧ Text v t ∧ Elems false vs r' ∧ r = l ++ (t ++ r')

def Members (first : Bool) : List (List Char × Value) → List Char → Prop
  | [], r => ∃ w, Ws w ∧ r = w ++ ['}']
  | (k, v) :: ms, r => ∃ l kt w w' t r', Lead first l ∧ Str k kt ∧ Ws w ∧ Ws w' ∧ Text v t ∧
      Members false ms r' ∧ r = l ++ (kt ++ (w ++ ':' :: (w' ++ (t ++ r'))))

end

def Document (v : Value) (x : List Char) : Prop :=
  ∃ w t w', Ws w ∧ Text v t ∧ Ws w' ∧ x = w ++ (t ++ w')

end Lib.Json
