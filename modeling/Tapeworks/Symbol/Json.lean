import Tapeworks.Json.Fields
import Tapeworks.Symbol

/-! The JSON form of a direction is its name. A reader also takes an object that holds `null` under the name. -/

namespace Tapeworks.Direction

def name : Direction → String
  | left => "Left"
  | right => "Right"

def ofName? (s : String) : Option Direction :=
  if s = left.name then some left
  else if s = right.name then some right
  else none

def ofJson? : Json.Value → Option Direction
  | .string (some s) => ofName? s
  | .object [(some s, .null)] => ofName? s
  | _ => none

def toJson (d : Direction) : Json.Value :=
  .text d.name

end Tapeworks.Direction
