import AiiOs.Lib.Bytes
import AiiOs.Lib.Text
import AiiOs.Lib.Json.Decoder
import Mathlib.Data.List.Sort

/-! internal/canonicaljson: `CanonicalizeV1`. The input is read rune by rune
once it is known to be UTF-8; every byte the scanners look at is ASCII. -/

namespace AiiOs.CanonicalJson
open Lib Lib.Json

inductive CanonicalError
  | notUtf8
  | invalidUnicodeEscape
  | unpairedHighSurrogate
  | unpairedLowSurrogate
  | decode (e : DecodeError)
  | keyNotString (tok : Token)
  | duplicateKey (key : List Char)
  | objectClosedBy (tok : Token)
  | arrayClosedBy (tok : Token)
  | unexpectedDelimiter (c : Char)
  | nulCodePoint
  | nonCanonicalNumber (lit : List Char)
  | extraToken (tok : Token)
  | outOfFuel
  deriving DecidableEq, Repr

/-- The fraction of a number, or nothing, up to the end of the literal. -/
def canonicalFraction (negative : Bool) (intPart : List Char) : List Char → Bool
  | [] => !(negative && intPart == ['0'])
  | c :: cs =>
    if c = '.' then
      let p := spanDigits cs
      p.1 != [] && p.1.getLast? != some '0' && p.2 == []
    else false

def canonicalJSONNumber (s : List Char) : Bool :=
  if s = [] ∨ s.any (fun c => c == 'e' || c == 'E' || c == '+') then false
  else
    let p := scanSign s
    let negative := p.1 == ['-']
    match p.2 with
    | [] => false
    | c :: cs =>
      if c = '0' then
        if (cs.head?.map Char.isDigit).getD false then false
        else canonicalFraction negative ['0'] cs
      else if c.isDigit then
        let q := spanDigits cs
        canonicalFraction negative (c :: q.1) q.2
      else false

mutual

/-- Each call and each turn of a loop reads a token, so fuel beyond the input is never used up. -/
def parseCanonicalJSONValue : Nat → Decoder → Except CanonicalError (Value × Decoder)
  | 0, _ => .error .outOfFuel
  | n + 1, d =>
    match d.token with
    | .error e => .error (.decode e)
    | .ok (.delim c, d) =>
      if c = '{' then parseMembers n d []
      else if c = '[' then parseElems n d []
      else .error (.unexpectedDelimiter c)
    | .ok (.str s, d) => if '\x00' ∈ s then .error .nulCodePoint else .ok (.str s, d)
    | .ok (.bool b, d) => .ok (.bool b, d)
    | .ok (.null, d) => .ok (.null, d)
    | .ok (.num lit, d) =>
      if canonicalJSONNumber lit then .ok (.num lit, d) else .error (.nonCanonicalNumber lit)

def parseMembers : Nat → Decoder → List (List Char × Value) → Except CanonicalError (Value × Decoder)
  | 0, _, _ => .error .outOfFuel
  | n + 1, d, obj =>
    if d.more then
      match d.token with
      | .error e => .error (.decode e)
      | .ok (.str key, d) =>
        if key ∈ obj.map Prod.fst then .error (.duplicateKey key)
        else
          match parseCanonicalJSONValue n d with
          | .error e => .error e
          | .ok (v, d) => parseMembers n d (obj ++ [(key, v)])
      | .ok (tok, _) => .error (.keyNotString tok)
    else
      match d.token with
      | .error e => .error (.decode e)
      | .ok (tok, d) => if tok = .delim '}' then .ok (.obj obj, d) else .error (.objectClosedBy tok)

def parseElems : Nat → Decoder → List Value → Except CanonicalError (Value × Decoder)
  | 0, _, _ => .error .outOfFuel
  | n + 1, d, array =>
    if d.more then
      match parseCanonicalJSONValue n d with
      | .error e => .error e
      | .ok (v, d) => parseElems n d (array ++ [v])
    else
      match d.token with
      | .error e => .error (.decode e)
      | .ok (tok, d) => if tok = .delim ']' then .ok (.arr array, d) else .error (.arrayClosedBy tok)

end

/-- The scan over the raw text for escapes that name half of a surrogate pair. -/
def validateJSONUnicodeEscapes (inString escaped : Bool) : List Char → Except CanonicalError Unit
  | [] => .ok ()
  | c :: cs =>
    if !inString then validateJSONUnicodeEscapes (c == '"') escaped cs
    else if escaped then
      if c ≠ 'u' then validateJSONUnicodeEscapes true false cs
      else
        match cs with
        | a :: b :: c :: d :: cs =>
          match hex4 a b c d with
          | none => .error .invalidUnicodeEscape
          | some cp =>
            if isHigh cp then
              match cs with
              | s :: u :: a :: b :: c :: d :: cs =>
                if s = '\\' ∧ u = 'u' ∧ ((hex4 a b c d).map isLow).getD false then
                  validateJSONUnicodeEscapes true false cs
                else .error .unpairedHighSurrogate
              | _ => .error .unpairedHighSurrogate
            else if isLow cp then .error .unpairedLowSurrogate
            else validateJSONUnicodeEscapes true false cs
        | _ => .error .invalidUnicodeEscape
    else if c = '\\' then validateJSONUnicodeEscapes true true cs
    else validateJSONUnicodeEscapes (c != '"') false cs

/-! ### The emitter -/

def emitRune (c : Char) : List Char := if c = '"' then ['\\', '"']
  else if c = '\\' then ['\\', '\\']
  else if c = '\x08' then ['\\', 'b']
  else if c = '\x0c' then ['\\', 'f']
  else if c = '\n' then ['\\', 'n']
  else if c = '\r' then ['\\', 'r']
  else if c = '\t' then ['\\', 't']
  else if c.toNat < 0x20 then
    ['\\', 'u', hexDigit (c.toNat / 4096 % 16), hexDigit (c.toNat / 256 % 16),
      hexDigit (c.toNat / 16 % 16), hexDigit (c.toNat % 16)]
  else [c]

def emitCanonicalJSONString (s : List Char) : List Char := '"' :: (s.flatMap emitRune ++ ['"'])

/-- The order `sort.Strings` puts keys in. -/
def keyLe {α : Type} (a b : List Char × α) : Prop := bytesLe (Utf8.encode a.1) (Utf8.encode b.1)

instance {α : Type} : DecidableRel (keyLe (α := α)) :=
  fun _ _ => inferInstanceAs (Decidable (bytesLe _ _))

def writeElems (first : Bool) : List (List Char) → List Char
  | [] => []
  | t :: ts => (if first then [] else [',']) ++ (t ++ writeElems false ts)

def writeMembers (first : Bool) : List (List Char × List Char) → List Char
  | [] => []
  | (k, t) :: ms =>
    (if first then [] else [',']) ++ (emitCanonicalJSONString k ++ ':' :: (t ++ writeMembers false ms))

mutual

def emitCanonicalJSONValue : Value → List Char
  | .obj ms => '{' :: (writeMembers true ((emitMembers ms).insertionSort keyLe) ++ ['}'])
  | .arr vs => '[' :: (writeElems true (emitElems vs) ++ [']'])
  | .str s => emitCanonicalJSONString s
  | .num lit => lit
  | .bool b => if b then ['t', 'r', 'u', 'e'] else ['f', 'a', 'l', 's', 'e']
  | .null => ['n', 'u', 'l', 'l']

def emitElems : List Value → List (List Char)
  | [] => []
  | v :: vs => emitCanonicalJSONValue v :: emitElems vs

/-- Each member's text under its key; the keys are sorted afterwards. -/
def emitMembers : List (List Char × Value) → List (List Char × List Char)
  | [] => []
  | (k, v) :: ms => (k, emitCanonicalJSONValue v) :: emitMembers ms

end

def parseDocument (x : List Char) : Except CanonicalError Value :=
  match parseCanonicalJSONValue (x.length + 1) (newDecoder x) with
  | .error e => .error e
  | .ok (v, d) =>
    match d.token with
    | .error .eof => .ok v
    | .error e => .error (.decode e)
    | .ok (tok, _) => .error (.extraToken tok)

def canonicalizeV1 (input : Bytes) : Except CanonicalError Bytes := match Utf8.decode? input with
  | none => .error .notUtf8
  | some x =>
    match validateJSONUnicodeEscapes false false x with
    | .error e => .error e
    | .ok () =>
      match parseDocument x with
      | .error e => .error e
      | .ok v => .ok (Utf8.encode (emitCanonicalJSONValue v))

end AiiOs.CanonicalJson
