import Tapeworks.Diagram
import Tapeworks.RunError

/-! Transition tables: for every state id, in ascending order, the state and the rules that leave it in order. -/

namespace Tapeworks

/-- A rule for the symbol `read`. Without `write` the cell keeps its symbol. -/
structure Transition where
  read : Char
  write : Option Char
  direction : Direction
  target : State
  deriving DecidableEq, Repr

structure Row where
  state : State
  transitions : List Transition
  deriving DecidableEq, Repr

structure Table where
  rows : List Row
  deriving DecidableEq, Repr

namespace Table

/-! ### Building -/

/-- Puts a state without rules at its place, unless its id is taken. -/
def insertRow (s : State) : List Row → List Row
  | [] => [⟨s, []⟩]
  | row :: rows =>
    if s.id < row.state.id then ⟨s, []⟩ :: row :: rows
    else if s.id = row.state.id then row :: rows
    else row :: insertRow s rows

/-- The table without rules. Of states with one id it has the first. -/
def ofStates (states : List State) : Table where
  rows := states.foldl (fun rows s => insertRow s rows) []

/-- Adds a rule after those of the state `id`. -/
def push (t : Table) (id : String) (rule : Transition) : Table where
  rows := t.rows.map fun row =>
    if row.state.id = id then { row with transitions := row.transitions ++ [rule] } else row

/-! ### Looking up -/

def row? (t : Table) (id : String) : Option Row :=
  t.rows.find? (·.state.id = id)

def state? (t : Table) (id : String) : Option State :=
  (t.row? id).map (·.state)

def states (t : Table) : List State :=
  t.rows.map (·.state)

def transitions (t : Table) (id : String) : List Transition :=
  ((t.row? id).map (·.transitions)).getD []

/-- The rule of a state for a symbol. -/
def find? (t : Table) (id : String) (symbol : Char) : Option Transition :=
  (t.transitions id).find? (·.read = symbol)

def reads (t : Table) (id : String) (symbol : Char) : Bool :=
  (t.find? id symbol).isSome

def startStates (t : Table) : List State :=
  t.states.filter (·.isStart)

/-- The only start state. -/
def start (t : Table) : Except RunError State :=
  match t.startStates with
  | [s] => .ok s
  | starts => .error (.noUniqueStart starts.length)

/-- Every rule with the state that it leaves, in order. -/
def rules (t : Table) : List (State × Transition) :=
  t.rows.flatMap fun row => row.transitions.map fun rule => (row.state, rule)

def transitionCount (t : Table) : Nat :=
  t.rows.foldl (fun n row => n + row.transitions.length) 0

end Table

end Tapeworks
