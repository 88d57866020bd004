import Tapeworks.Diagram

/-! Arranging a diagram. A layout sees the ids of the states and the ends of the edges, and gives positions to ids. -/

namespace Tapeworks

/-- The position that an arrangement of the nodes and links gives to a node, if any. -/
abbrev Layout := (nodes : List String) → (links : List (String × String)) → String → Option Position

/-- Moves every state that the layout gives a position. -/
def Diagram.arrange (d : Diagram) (layout : Layout) : Diagram :=
  let place := layout d.nodes d.links
  { d with states := d.states.map fun s => { s with position := (place s.id).getD s.position } }

end Tapeworks
