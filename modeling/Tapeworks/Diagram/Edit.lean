import Tapeworks.Diagram
import Tapeworks.Text.Numeral

/-! Editing a diagram. An edit either succeeds or names the reason why it does not and leaves the diagram alone. -/

namespace Tapeworks

inductive EditError
  | unknownState (id : String)
  | unknownEdge (id : String)
  | duplicateEdge (source target : String)
  deriving DecidableEq, Repr

def EditError.message : EditError → String
  | unknownState id => "unknown state: " ++ id
  | unknownEdge id => "unknown edge: " ++ id
  | duplicateEdge source target => "states " ++ source ++ " and " ++ target ++ " are already connected"

/-! ### Ids -/

/-- The first number from `candidate` on that is missing in an ascending list. -/
def firstGap (candidate : Nat) : List Nat → Nat
  | [] => candidate
  | n :: ns =>
    if n < candidate then firstGap candidate ns
    else if n = candidate then firstGap (candidate + 1) ns
    else candidate

/-- The numeral of the smallest positive number that no id stands for. -/
def nextId (ids : List String) : String :=
  Text.numeral (firstGap 1 ((ids.filterMap Text.word?).mergeSort (· ≤ ·)))

/-! ### Edits -/

namespace Diagram

/-- Changes the first element that satisfies `p`, if there is one. -/
def updateFirst? (p : α → Bool) (f : α → α) : List α → Option (List α)
  | [] => none
  | a :: as => if p a then some (f a :: as) else (updateFirst? p f as).map (a :: ·)

def nextId (d : Diagram) : String :=
  Tapeworks.nextId d.nodes

/-- The state that `addState` adds. -/
def newState (d : Diagram) (position : Position) : State :=
  { id := d.nextId, position }

def addState (d : Diagram) (position : Position) : Diagram :=
  { d with states := d.states ++ [d.newState position] }

/-- Removes a state with every edge that starts or ends at it. -/
def removeState (d : Diagram) (id : String) : Except EditError (State × Diagram) :=
  match d.state? id with
  | none => .error (.unknownState id)
  | some s => .ok (s,
      { states := d.states.eraseP (·.id = id), edges := d.edges.filter fun e => e.source ≠ id ∧ e.target ≠ id })

/-- Adds an edge with the default label between two states that no edge connects in this direction. -/
def connect (d : Diagram) (source target : String) : Except EditError (Edge × Diagram) :=
  if (d.state? source).isNone then .error (.unknownState source)
  else if (d.state? target).isNone then .error (.unknownState target)
  else if (d.edgeBetween? source target).isSome then .error (.duplicateEdge source target)
  else
    let edge := Edge.between source target Edge.defaultLabel
    .ok (edge, { d with edges := d.edges ++ [edge] })

def setLabel (d : Diagram) (id label : String) : Except EditError Diagram :=
  match updateFirst? (·.id = id) (fun e => { e with label }) d.edges with
  | none => .error (.unknownEdge id)
  | some edges => .ok { d with edges }

def removeEdge (d : Diagram) (id : String) : Except EditError (Edge × Diagram) :=
  match d.edge? id with
  | none => .error (.unknownEdge id)
  | some e => .ok (e, { d with edges := d.edges.eraseP (·.id = id) })

def updateState (d : Diagram) (id : String) (f : State → State) : Except EditError Diagram :=
  match updateFirst? (·.id = id) f d.states with
  | none => .error (.unknownState id)
  | some states => .ok { d with states }

def setStart (d : Diagram) (id : String) (isStart : Bool) : Except EditError Diagram :=
  d.updateState id fun s => { s with isStart }

def setFinal (d : Diagram) (id : String) (isFinal : Bool) : Except EditError Diagram :=
  d.updateState id fun s => { s with isFinal }

/-- The diagram in which the states with the given id are the start states. -/
def startedAt (d : Diagram) (id : String) : Diagram :=
  { d with states := d.states.map fun s => { s with isStart := decide (s.id = id) } }

def makeSoleStart (d : Diagram) (id : String) : Except EditError Diagram :=
  if (d.state? id).isNone then .error (.unknownState id) else .ok (d.startedAt id)

end Diagram

end Tapeworks
