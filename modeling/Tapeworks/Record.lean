import Tapeworks.Diagram.Json
import Tapeworks.Json.Reader

/-! Records: machines and tapes as they are saved, each with its id. A machine record is a diagram with an id beside its
    states and edges. -/

namespace Tapeworks

structure MachineRecord where
  id : String
  diagram : Diagram
  deriving DecidableEq, Repr

/-- A tape with one symbol for each cell. -/
structure TapeRecord where
  id : String
  contents : List Char
  deriving DecidableEq, Repr

namespace MachineRecord

/-- A record must be an object. Its id may be missing. -/
def ofJson? : Json.Value → Option MachineRecord
  | .object members => do
    match ← Json.Value.members? members ["id", "states", "edges"] with
    | [id, states, edges] =>
      return ⟨← Json.Value.withDefault? "" Json.Value.string? id, ← Diagram.ofFields? states edges⟩
    | _ => none
  | _ => none

def toJson (r : MachineRecord) : Json.Value :=
  .record (("id", .text r.id) :: r.diagram.members)

/-- The record in a JSON text, which is kept whole before it is understood. -/
def read? (text : String) : Option MachineRecord := do
  ofJson? (← Json.readWhole? text)

end MachineRecord

namespace TapeRecord

def ofJson? (v : Json.Value) : Option TapeRecord := do
  match ← v.fields? ["id", "contents"] with
  | [id, contents] => return ⟨← (← id).string?, ← (← contents).list? Json.Value.symbol?⟩
  | _ => none

def toJson (r : TapeRecord) : Json.Value :=
  .record [("id", .text r.id), ("contents", .array (r.contents.map .symbol))]

end TapeRecord

end Tapeworks
