import Tapeworks.Run

/-! Sessions: what may be done to a machine, in any order, and what is seen of it afterwards. Every operation gets a
    reply, and one that is refused leaves the machine as it was. -/

namespace Tapeworks.Machine

inductive Operation
  | step
  | run (limit : Nat)
  | paced (turns : Nat)
  | reset
  | setTape (tape : Tape)
  | setSymbol (index : Nat) (symbol : Char)
  | setHead (index : Nat)
  | setState (id : String)
  | setTraceLimit (limit : Option Nat)
  deriving DecidableEq, Repr

inductive Reply
  | stepped (step : Step)
  | ran (halt : Halt)
  | paced (halt : Option Halt) (seen : List Snapshot)
  | done
  | refused (error : RunError)
  deriving DecidableEq, Repr

/-- The operation puts the machine in a state by itself, rather than by a rule. -/
def Operation.placesState : Operation → Bool
  | .reset | .setState _ => true
  | _ => false

def Operation.setsState : Operation → Bool
  | .setState _ => true
  | _ => false

def Operation.limitsTrace : Operation → Bool
  | .setTraceLimit _ => true
  | _ => false

def edited (m : Machine) : Except RunError Machine → Reply × Machine
  | .ok next => (.done, next)
  | .error e => (.refused e, m)

def perform (m : Machine) : Operation → Reply × Machine
  | .step => (.stepped m.step.1, m.step.2)
  | .run limit => (.ran (m.run limit).1, (m.run limit).2)
  | .paced turns => (.paced (m.paced turns).halt (m.paced turns).seen, (m.paced turns).machine)
  | .reset => m.edited m.reset
  | .setTape tape => (.done, m.setTape tape)
  | .setSymbol index symbol => m.edited (m.setSymbol index symbol)
  | .setHead index => m.edited (m.setHead index)
  | .setState id => m.edited (m.setState id)
  | .setTraceLimit limit => (.done, m.setTraceLimit limit)

structure View where
  state : String
  isFinal : Bool
  tape : Tape
  stepCount : Nat
  status : Status
  trace : List Snapshot
  deriving DecidableEq, Repr

def view (m : Machine) : View where
  state := m.state.id
  isFinal := m.state.isFinal
  tape := m.tape
  stepCount := m.stepCount
  status := m.status
  trace := m.trace

/-- The reply to each operation and what is seen after it. -/
def session (m : Machine) : List Operation → List (Reply × View)
  | [] => []
  | op :: ops => ((m.perform op).1, (m.perform op).2.view) :: (m.perform op).2.session ops

end Tapeworks.Machine
