import AiiOs.Lib.Json.Grammar

/-! The token reader of Go's encoding/json: `Decoder.token` and `Decoder.more`
over the rest of the input, the state that says which token may come next and
the states of the enclosing arrays and objects. -/

namespace Lib.Json

inductive DecodeError
  | eof
  | malformed
  | maxDepth
  deriving DecidableEq, Repr

inductive Token
  | delim (c : Char)
  | str (s : List Char)
  | num (lit : List Char)
  | bool (b : Bool)
  | null
  deriving DecidableEq, Repr

inductive TokenState
  | topValue
  | arrayStart
  | arrayValue
  | arrayComma
  | objectStart
  | objectKey
  | objectColon
  | objectValue
  | objectComma
  deriving DecidableEq, Repr

structure Decoder where
  input : List Char
  state : TokenState
  stack : List TokenState
  deriving DecidableEq, Repr

def newDecoder (input : List Char) : Decoder := ⟨input, .topValue, []⟩

def maxNestingDepth : Nat := 10000

/-! ### Literals -/

def lexString : List Char → Option (List Item × List Char)
  | [] => none
  | c :: cs =>
    if c = '"' then some ([], cs)
    else if c = '\\' then
      match cs with
      | [] => none
      | e :: cs =>
        if e = 'u' then
          match cs with
          | a :: b :: c :: d :: cs =>
            match hex4 a b c d with
            | some n => (lexString cs).map fun p => (.unit n :: p.1, p.2)
            | none => none
          | _ => none
        else
          match simpleEscape e with
          | some c => (lexString cs).map fun p => (.chr c :: p.1, p.2)
          | none => none
    else if c.toNat < 0x20 then none
    else (lexString cs).map fun p => (.chr c :: p.1, p.2)

def spanDigits : List Char → List Char × List Char
  | [] => ([], [])
  | c :: cs => if c.isDigit then let p := spanDigits cs; (c :: p.1, p.2) else ([], c :: cs)

def scanSign : List Char → List Char × List Char
  | [] => ([], [])
  | c :: cs => if c = '-' then (['-'], cs) else ([], c :: cs)

def scanInt : List Char → Option (List Char × List Char)
  | [] => none
  | c :: cs =>
    if c = '0' then some (['0'], cs)
    else if c.isDigit then let p := spanDigits cs; some (c :: p.1, p.2)
    else none

def scanFrac : List Char → Option (List Char × List Char)
  | [] => some ([], [])
  | c :: cs =>
    if c = '.' then let p := spanDigits cs; if p.1 = [] then none else some ('.' :: p.1, p.2)
    else some ([], c :: cs)

def scanExpSign : List Char → List Char × List Char
  | [] => ([], [])
  | c :: cs => if c = '+' ∨ c = '-' then ([c], cs) else ([], c :: cs)

def scanExp : List Char → Option (List Char × List Char)
  | [] => some ([], [])
  | c :: cs =>
    if c = 'e' ∨ c = 'E' then
      let s := scanExpSign cs
      let p := spanDigits s.2
      if p.1 = [] then none else some (c :: (s.1 ++ p.1), p.2)
    else some ([], c :: cs)

def scanNumber (cs : List Char) : Option (List Char × List Char) := let s := scanSign cs
  match scanInt s.2 with
  | none => none
  | some i =>
    match scanFrac i.2 with
    | none => none
    | some f =>
      match scanExp f.2 with
      | none => none
      | some e => some (s.1 ++ (i.1 ++ (f.1 ++ e.1)), e.2)

def scanWord : List Char → List Char → Option (List Char)
  | [], cs => some cs
  | _ :: _, [] => none
  | w :: ws, c :: cs => if c = w then scanWord ws cs else none

/-- A value that is neither array nor object, as `Decode` reads it into an `any`
with `UseNumber`. -/
def scanScalar (cs : List Char) : Option (Token × List Char) := match cs with
  | [] => none
  | c :: rest =>
    if c = '"' then (lexString rest).map fun p => (.str (itemsRunes p.1), p.2)
    else if c = 'n' then (scanWord ['u', 'l', 'l'] rest).map fun r => (.null, r)
    else if c = 't' then (scanWord ['r', 'u', 'e'] rest).map fun r => (.bool true, r)
    else if c = 'f' then (scanWord ['a', 'l', 's', 'e'] rest).map fun r => (.bool false, r)
    else (scanNumber cs).map fun p => (.num p.1, p.2)

/-! ### Tokens -/

def TokenState.valueAllowed : TokenState → Bool
  | .topValue | .arrayStart | .arrayValue | .objectValue => true
  | _ => false

def TokenState.valueEnd : TokenState → TokenState
  | .arrayStart | .arrayValue => .arrayComma
  | .objectValue => .objectComma
  | s => s

def TokenState.keyAllowed : TokenState → Bool
  | .objectStart | .objectKey => true
  | _ => false

section
variable (stack : List TokenState)

/-- A string where a key may stand is the key, and its colon comes next. -/
def readScalar (s : TokenState) (cs : List Char) : Except DecodeError (Token × Decoder) :=
  if s.keyAllowed then
    match cs with
    | [] => .error .eof
    | c :: rest =>
      if c = '"' then
        match lexString rest with
        | some p => .ok (.str (itemsRunes p.1), ⟨p.2, .objectColon, stack⟩)
        | none => .error .malformed
      else .error .malformed
  else if s.valueAllowed then
    match scanScalar cs with
    | some p => .ok (p.1, ⟨p.2, s.valueEnd, stack⟩)
    | none => .error .malformed
  else .error .malformed

def openDelim (s inner : TokenState) (c : Char) (cs : List Char) :
    Except DecodeError (Token × Decoder) :=
  if s.valueAllowed then
    if stack.length = maxNestingDepth then .error .maxDepth
    else .ok (.delim c, ⟨cs, inner, s :: stack⟩)
  else .error .malformed

def closeDelim (ok : Bool) (c : Char) (cs : List Char) : Except DecodeError (Token × Decoder) :=
  if ok then
    match stack with
    | [] => .error .malformed
    | outer :: stack => .ok (.delim c, ⟨cs, outer.valueEnd, stack⟩)
  else .error .malformed

/-- Spaces and separators before a token, each separator only where the state
calls for it. -/
def skipLead : TokenState → List Char → Except DecodeError (TokenState × Char × List Char)
  | _, [] => .error .eof
  | s, c :: cs =>
    if isSpace c then skipLead s cs
    else if c = ':' then
      if s = .objectColon then skipLead .objectValue cs else .error .malformed
    else if c = ',' then
      if s = .arrayComma then skipLead .arrayValue cs
      else if s = .objectComma then skipLead .objectKey cs
      else .error .malformed
    else .ok (s, c, cs)

def dispatch (s : TokenState) (c : Char) (cs : List Char) : Except DecodeError (Token × Decoder) :=
  if c = '[' then openDelim stack s .arrayStart c cs
  else if c = ']' then closeDelim stack (s = .arrayStart ∨ s = .arrayComma) c cs
  else if c = '{' then openDelim stack s .objectStart c cs
  else if c = '}' then closeDelim stack (s = .objectStart ∨ s = .objectComma) c cs
  else readScalar stack s (c :: cs)

end

def Decoder.token (d : Decoder) : Except DecodeError (Token × Decoder) :=
  match skipLead d.state d.input with
  | .error e => .error e
  | .ok (s, c, cs) => dispatch d.stack s c cs

def Decoder.more (d : Decoder) : Bool := match d.input.dropWhile isSpace with
  | [] => false
  | c :: _ => c ≠ ']' && c ≠ '}'

end Lib.Json
