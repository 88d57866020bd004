import Tapeworks.Binary64
import Tapeworks.Symbol

/-! Diagrams: machines as they are drawn, as states and labelled edges between them. Nothing keeps ids distinct or
    edges attached; every look-up takes the first that matches. -/

namespace Tapeworks

/-- A place on the canvas. -/
structure Position where
  x : Binary64
  y : Binary64
  deriving DecidableEq, Repr, Inhabited

structure State where
  id : String
  isStart : Bool := false
  isFinal : Bool := false
  position : Position := default
  deriving DecidableEq, Repr

/-- The label holds every rule from the source state to the target state. -/
structure Edge where
  id : String
  source : String
  target : String
  label : String
  deriving DecidableEq, Repr

structure Diagram where
  states : List State
  edges : List Edge
  deriving DecidableEq, Repr

namespace Edge

def idBetween (source target : String) : String :=
  "e" ++ source ++ "-" ++ target

/-- The edge with the id that its ends give it. -/
def between (source target label : String) : Edge where
  id := idBetween source target
  source := source
  target := target
  label := label

/-- The label of a new edge moves right over a blank. -/
def defaultLabel : String := "_,_,>"

end Edge

namespace Diagram

def empty : Diagram := ⟨[], []⟩

/-- The machine that editing starts from: 1, 2 and 3 in a row, each edge moving right over a blank. -/
def starter : Diagram where
  states :=
    let x := (Binary64.ofNat? 200).getD Binary64.zero
    [{ id := "1", isStart := true, position := ⟨x.negate, Binary64.zero⟩ },
     { id := "2" },
     { id := "3", isFinal := true, position := ⟨x, Binary64.zero⟩ }]
  edges := [Edge.between "1" "2" Edge.defaultLabel, Edge.between "2" "3" Edge.defaultLabel]

def state? (d : Diagram) (id : String) : Option State :=
  d.states.find? (·.id = id)

def edge? (d : Diagram) (id : String) : Option Edge :=
  d.edges.find? (·.id = id)

def edgeBetween? (d : Diagram) (source target : String) : Option Edge :=
  d.edges.find? fun e => e.source = source ∧ e.target = target

def startStates (d : Diagram) : List State :=
  d.states.filter (·.isStart)

/-- The ids of all states, in order. -/
def nodes (d : Diagram) : List String :=
  d.states.map (·.id)

/-- The source and the target of every edge, in order. -/
def links (d : Diagram) : List (String × String) :=
  d.edges.map fun e => (e.source, e.target)

end Diagram

end Tapeworks
