import Tapeworks.Json.Fields
import Tapeworks.Json.Reader
import Tapeworks.Json.Writer
import Tapeworks.Table

/-! Exported tables: an object that lists the rules of each state under its id, with targets given by id. -/

namespace Tapeworks

structure ExportedTransition where
  readLetter : Char
  writeLetter : Option Char
  /-- The symbol of the direction. -/
  direction : Char
  targetStateId : String
  deriving DecidableEq, Repr

namespace ExportedTransition

def ofTransition (rule : Transition) : ExportedTransition :=
  ⟨rule.read, rule.write, rule.direction.symbol, rule.target.id⟩

def ofJson? (v : Json.Value) : Option ExportedTransition := do
  match ← v.fields? ["readLetter", "writeLetter", "direction", "targetStateId"] with
  | [read, write, direction, target] =>
    return ⟨← (← read).symbol?, ← Json.Value.optional? Json.Value.symbol? write, ← (← direction).symbol?,
      ← (← target).string?⟩
  | _ => none

/-- A rule without a write symbol has no member for it. -/
def toJson (t : ExportedTransition) : Json.Value :=
  let write := match t.writeLetter with
    | none => []
    | some c => [("writeLetter", .symbol c)]
  .record ([("readLetter", .symbol t.readLetter)] ++ write ++
    [("direction", .symbol t.direction), ("targetStateId", .text t.targetStateId)])

end ExportedTransition

namespace Table

/-- The rules of every state, by ascending id. -/
def exported (t : Table) : List (String × List ExportedTransition) :=
  t.rows.map fun row => (row.state.id, row.transitions.map ExportedTransition.ofTransition)

def toJson (t : Table) : Json.Value :=
  .record (t.exported.map fun (id, rules) => (id, .array (rules.map ExportedTransition.toJson)))

def jsonText (t : Table) : String :=
  t.toJson.prettyText

/-- The exported table that a text stands for. -/
def readExported? (text : String) : Option (List (String × List ExportedTransition)) := do
  (← Json.read? text).map? (Json.Value.list? ExportedTransition.ofJson?)

end Table

end Tapeworks
