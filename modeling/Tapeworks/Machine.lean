import Tapeworks.Table
import Tapeworks.Tape

/-! Machines: a table, a configuration and the record of the run so far. Only a move changes a configuration of
    itself; a machine that has halted keeps its halt until it is reset or edited. -/

namespace Tapeworks

/-- A point of a run as it is shown and kept. -/
structure Snapshot where
  step : Nat
  state : String
  tape : String
  head : Nat
  deriving DecidableEq, Repr

inductive Halt
  | accepted
  | failed (error : RunError)
  deriving DecidableEq, Repr

/-- What a step did. -/
inductive Step
  | moved
  | halted (halt : Halt)
  deriving DecidableEq, Repr

/-- A machine is idle from its start, or from a reset or an edit, up to the next step. -/
inductive Status
  | idle
  | running
  | halted (halt : Halt)
  deriving DecidableEq, Repr

structure Configuration where
  state : State
  tape : Tape
  deriving DecidableEq, Repr

/-- The configuration after a move, or why there is none. -/
def Table.move (t : Table) (c : Configuration) : Except Halt Configuration :=
  if c.state.isFinal then .error .accepted
  else
    match t.find? c.state.id c.tape.current with
    | none => .error (.failed (.noMatchingRule c.state.id c.tape.current))
    | some rule =>
      match c.tape.apply rule.write rule.direction with
      | .error e => .error (.failed e)
      | .ok tape => .ok ⟨rule.target, tape⟩

structure Machine where
  table : Table
  configuration : Configuration
  status : Status
  stepCount : Nat
  /-- The snapshots of the steps so far, last first. -/
  history : List Snapshot
  /-- How many snapshots are kept, if not all. -/
  traceLimit : Option Nat
  deriving DecidableEq, Repr

namespace Machine

/-! ### Setting up -/

def inState (table : Table) (tape : Tape) (state : State) : Machine where
  table := table
  configuration := ⟨state, tape⟩
  status := .idle
  stepCount := 0
  history := []
  traceLimit := none

/-- A machine in the only start state of its table. -/
def new (table : Table) (tape : Tape) : Except RunError Machine := do
  return inState table tape (← table.start)

def stateNamed (table : Table) (id : String) : Except RunError State :=
  match table.state? id with
  | none => .error (.unknownState id)
  | some s => .ok s

def startingAt (table : Table) (tape : Tape) (id : String) : Except RunError Machine := do
  return inState table tape (← stateNamed table id)

/-- A machine that continues from a snapshot. -/
def resume (table : Table) (snapshot : Snapshot) : Except RunError Machine := do
  let tape ← (Tape.ofCells snapshot.tape.toList).setHead snapshot.head
  let m ← startingAt table tape snapshot.state
  return { m with stepCount := snapshot.step }

/-! ### Views -/

def state (m : Machine) : State :=
  m.configuration.state

def tape (m : Machine) : Tape :=
  m.configuration.tape

def snapshot (m : Machine) : Snapshot where
  step := m.stepCount
  state := m.state.id
  tape := m.tape.text
  head := m.tape.head

/-- The snapshots that are kept, in the order of the steps. -/
def trace (m : Machine) : List Snapshot :=
  m.history.reverse

/-- The rule for the symbol under the head. -/
def rule? (m : Machine) : Option Transition :=
  m.table.find? m.state.id m.tape.current

/-! ### Steps -/

/-- The first snapshots of a history that is kept up to a limit. -/
def kept (limit : Option Nat) (history : List Snapshot) : List Snapshot :=
  match limit with
  | none => history
  | some n => history.take n

/-- The machine after a move to a configuration. -/
def moveTo (m : Machine) (c : Configuration) : Machine :=
  let moved := { m with configuration := c, status := .running, stepCount := m.stepCount + 1 }
  { moved with history := kept m.traceLimit (moved.snapshot :: m.history) }

def step (m : Machine) : Step × Machine :=
  match m.status with
  | .halted halt => (.halted halt, m)
  | _ =>
    match m.table.move m.configuration with
    | .error halt => (.halted halt, { m with status := .halted halt })
    | .ok c => (.moved, m.moveTo c)

def isHalted (m : Machine) : Bool :=
  match m.status with
  | .halted _ => true
  | _ => false

/-! ### Edits -/

def idle (m : Machine) : Machine :=
  { m with status := .idle }

/-- Goes back to the only start state and the first cell. The cells stay as they are. -/
def reset (m : Machine) : Except RunError Machine := do
  let start ← m.table.start
  let configuration := ⟨start, Tape.ofCells m.tape.cells⟩
  return { m with configuration, status := .idle, stepCount := 0, history := [] }

def withTape (m : Machine) (tape : Tape) : Machine :=
  { m with configuration := { m.configuration with tape } }

def setTape (m : Machine) (tape : Tape) : Machine :=
  (m.withTape tape).idle

def setSymbol (m : Machine) (index : Nat) (symbol : Char) : Except RunError Machine := do
  return (m.withTape (← m.tape.setSymbol index symbol)).idle

def setHead (m : Machine) (index : Nat) : Except RunError Machine := do
  return (m.withTape (← m.tape.setHead index)).idle

def setState (m : Machine) (id : String) : Except RunError Machine := do
  let state ← stateNamed m.table id
  return { m with configuration := { m.configuration with state } }.idle

def setTraceLimit (m : Machine) (limit : Option Nat) : Machine :=
  { m with traceLimit := limit, history := kept limit m.history }

end Machine

end Tapeworks
