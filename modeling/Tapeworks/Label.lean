import Tapeworks.Symbol
import Tapeworks.Text.Space

/-! Edge labels. A label holds rule specs between semicolons, and a spec holds fields between commas:
    `read,direction` or `read,write,direction`. White space around a field does not count. -/

namespace Tapeworks.Label

/-- A rule spec as written, and its trimmed fields. -/
structure Spec where
  text : String
  fields : List String
  deriving DecidableEq, Repr

/-- A rule as a label states it. Without `write` the cell keeps its symbol. -/
structure Rule where
  read : Char
  write : Option Char
  direction : Direction
  deriving DecidableEq, Repr

/-- Why a spec is no rule. -/
inductive Flaw
  | fieldCount (fields : Nat)
  | symbol (field : String)
  deriving DecidableEq, Repr

def Spec.ofText (cs : List Char) : Spec where
  text := String.ofList cs
  fields := (cs.splitOn ',').map fun field => String.ofList (Text.trim field)

def specs (label : String) : List Spec :=
  (label.toList.splitOn ';').map Spec.ofText

/-- The symbol in a field that holds exactly one character. -/
def fieldSymbol (field : String) : Except Flaw Char :=
  match field.toList with
  | [c] => .ok c
  | _ => .error (.symbol field)

def Spec.rule (spec : Spec) : Except Flaw Rule :=
  match spec.fields with
  | [read, direction] => do
    return ⟨← fieldSymbol read, none, Direction.ofField direction⟩
  | [read, write, direction] => do
    let read ← fieldSymbol read
    let write ← fieldSymbol write
    return ⟨read, some write, Direction.ofField direction⟩
  | fields => .error (.fieldCount fields.length)

end Tapeworks.Label
