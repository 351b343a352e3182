import AiiOs.Lib.Json.Fields

/-! internal/canonicaljson, strict.go: a struct read by `encoding/json` without unknown
fields, and once more by `encoding/json/v2`, for which a member name has to be spelled as
the field is and to stand once. -/

namespace AiiOs.CanonicalJson
open Lib Lib.Json

/-! ### What the second reading takes -/

def exactText : Value → Bool
  | .str _ | .null => true
  | _ => false

def exactInt64 (v : Value) : Bool := (storeInt64 0 v).isSome

def exactSlice (elem : Value → Bool) : Value → Bool
  | .arr vs => vs.all elem
  | .null => true
  | _ => false

def exactObject (fields : List (String × (Value → Bool))) : Value → Bool
  | .obj ms =>
    decide (ms.map Prod.fst).Nodup && ms.all fun m =>
      match fields.find? fun f => f.1.toList = m.1 with
      | some f => f.2 m.2
      | none => false
  | .null => true
  | _ => false

/-- `DecodeStrict` into a struct that is zero. Text that is not UTF-8 fails the second reading. -/
def decodeStrict {σ : Type} (T : StructType σ) (zero : σ) (exact : Value → Bool) (raw : Bytes) :
    Option σ := do
  let text ← Utf8.decode? raw
  let s ← T.unmarshal zero text
  let v ← readDocument .any text
  if exact v then some s else none

end AiiOs.CanonicalJson
