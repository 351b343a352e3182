import Mathlib.Data.List.Infix

/-! internal/tools, tool_edit.go and writefile.go: one edit of a file nobody else changes, with every
failure of its reading, of its writing and of the putting back. -/

namespace AiiOs.Tools
open List

variable {α : Type}

/-- Before the file is emptied: it is kept from the tool, or not opened, not read, not the file that was
read, or not truncated. -/
inductive Refused
  | kept
  | io

inductive EditError
  | required
  | unread (why : Refused)
  | notFound (numbered : Bool)
  | identical
  | appears (n : Nat)
  | cancelled
  | refused (why : Refused)
  | putBack
  | stoppedAgain (wrote of : Nat)
  | backRefused (wrote of : Nat) (why : Refused)

/-- What the words say the file holds, where that is not what it held before. -/
def EditError.left (content edited : List α) : EditError → Option (List α)
  | .stoppedAgain wrote _ => some (content.take wrote)
  | .backRefused wrote .. => some (edited.take wrote)
  | _ => none

variable [DecidableEq α] (old new : List α)

/-- `strings.Count`, which goes on behind each match: `skip` of its units are still to pass. -/
def count : Nat → List α → Nat
  | _, [] => 0
  | skip + 1, _ :: s => count skip s
  | 0, c :: s => if old <+: c :: s then count (old.length - 1) s + 1 else count 0 s

/-- No two occurrences overlap. -/
def Apart (content : List α) : Prop :=
  ∀ pre post pre' post', content = pre ++ old ++ post → content = pre' ++ old ++ post' →
    pre.length < pre'.length → pre.length + old.length ≤ pre'.length

variable {old new} {content s : List α}

section
variable (numberedLines : List α → Bool) (path : String) (io : Surroundings)

end

end AiiOs.Tools
