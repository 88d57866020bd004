import Tapeworks.Diagram
import Tapeworks.Json.Fields

/-! The JSON forms of diagrams and their parts. Of a state only the id must be given. -/

namespace Tapeworks

open Json.Value (withDefault? list? string? bool? binary64?)

def Position.ofJson? (v : Json.Value) : Option Position := do
  match ← v.fields? ["x", "y"] with
  | [x, y] => return ⟨← (← x).binary64?, ← (← y).binary64?⟩
  | _ => none

def Position.toJson (p : Position) : Json.Value :=
  .record [("x", .binary64 p.x), ("y", .binary64 p.y)]

def State.ofJson? (v : Json.Value) : Option State := do
  match ← v.fields? ["id", "isStart", "isFinal", "position"] with
  | [id, isStart, isFinal, position] =>
    return {
      id := ← (← id).string?
      isStart := ← withDefault? false bool? isStart
      isFinal := ← withDefault? false bool? isFinal
      position := ← withDefault? default Position.ofJson? position }
  | _ => none

def State.toJson (s : State) : Json.Value :=
  .record [("id", .text s.id), ("isStart", .bool s.isStart), ("isFinal", .bool s.isFinal),
    ("position", s.position.toJson)]

def Edge.ofJson? (v : Json.Value) : Option Edge := do
  match ← v.fields? ["id", "source", "target", "label"] with
  | [id, source, target, label] =>
    return ⟨← (← id).string?, ← (← source).string?, ← (← target).string?, ← (← label).string?⟩
  | _ => none

def Edge.toJson (e : Edge) : Json.Value :=
  .record [("id", .text e.id), ("source", .text e.source), ("target", .text e.target), ("label", .text e.label)]

namespace Diagram

/-- A diagram from the values of its two fields. -/
def ofFields? (states edges : Option Json.Value) : Option Diagram := do
  return ⟨← withDefault? [] (list? State.ofJson?) states, ← withDefault? [] (list? Edge.ofJson?) edges⟩

def ofJson? (v : Json.Value) : Option Diagram := do
  match ← v.fields? ["states", "edges"] with
  | [states, edges] => ofFields? states edges
  | _ => none

def members (d : Diagram) : List (String × Json.Value) :=
  [("states", .array (d.states.map State.toJson)), ("edges", .array (d.edges.map Edge.toJson))]

def toJson (d : Diagram) : Json.Value :=
  .record d.members

end Diagram

end Tapeworks
