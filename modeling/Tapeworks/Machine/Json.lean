import Tapeworks.Json.Fields
import Tapeworks.Machine

/-! The JSON form of a snapshot. -/

namespace Tapeworks.Snapshot

def ofJson? (v : Json.Value) : Option Snapshot := do
  match ← v.fields? ["step", "state", "tape", "head"] with
  | [step, state, tape, head] =>
    return ⟨← (← step).word?, ← (← state).string?, ← (← tape).string?, ← (← head).word?⟩
  | _ => none

def toJson (s : Snapshot) : Json.Value :=
  .record [("step", .word s.step), ("state", .text s.state), ("tape", .text s.tape), ("head", .word s.head)]

end Tapeworks.Snapshot
