import Tapeworks.Machine

/-! Runs: a machine stepped up to a limit, or stepped in time until it halts or is cancelled. -/

namespace Tapeworks

namespace Machine

/-! ### Runs up to a limit -/

/-- Steps at most `budget` times and then gives up, unless no further step is needed to see the halt. -/
def runWithin (limit : Nat) : Nat → Machine → Halt × Machine
  | 0, m =>
    if m.isHalted || m.state.isFinal then
      match m.step with
      | (.halted halt, next) => (halt, next)
      | (.moved, _) => (.failed (.stepLimitExceeded limit), m)
    else (.failed (.stepLimitExceeded limit), m)
  | budget + 1, m =>
    match m.step with
    | (.halted halt, next) => (halt, next)
    | (.moved, next) => runWithin limit budget next

/-- Steps until the machine halts, giving up after `limit` steps. Giving up does not halt the machine. -/
def run (m : Machine) (limit : Nat) : Halt × Machine :=
  runWithin limit limit m

/-! ### Paced runs -/

/-- What a paced run came to: its halt, unless it was cancelled, and the snapshot of every step that it took. -/
structure Paced where
  halt : Option Halt
  seen : List Snapshot
  machine : Machine
  deriving DecidableEq, Repr

/-- Steps until the machine halts or `turns` steps have been tried, after the snapshots seen before, last first. -/
def pacedFrom (seen : List Snapshot) : Nat → Machine → Paced
  | 0, m => ⟨none, seen.reverse, m⟩
  | turns + 1, m =>
    match m.step with
    | (.halted halt, next) => ⟨some halt, seen.reverse, next⟩
    | (.moved, next) => pacedFrom (next.snapshot :: seen) turns next

def paced (m : Machine) (turns : Nat) : Paced :=
  pacedFrom [] turns m

/-! ### Runs to the end -/

/-- The symbols that the tape can come to hold. -/
def symbols (m : Machine) : List Char :=
  (m.tape.cells ++ m.table.rules.filterMap (·.2.write)).eraseDups

/-- How many configurations the machine can pass through. A run of more moves than this passes one of them twice and
    never halts. -/
def configurationBound (m : Machine) : Nat :=
  m.table.rows.length * m.tape.length * Nat.pow m.symbols.length m.tape.length

/-- The whole paced run. It has no halt exactly when the machine never halts. -/
def pacedToEnd (m : Machine) : Paced :=
  m.paced (m.configurationBound + 1)

/-- How many steps begin up to the time `cancelled` when a step takes no time and `delay` passes after each. Without
    a delay all of them do. -/
def turnsBefore (cancelled delay : Nat) : Option Nat :=
  if delay = 0 then none else some (cancelled / delay + 1)

/-- The paced run that is cancelled at a time, given in the unit of the delay. -/
def pacedUntil (m : Machine) (cancelled delay : Nat) : Paced :=
  match turnsBefore cancelled delay with
  | none => m.pacedToEnd
  | some turns => m.paced turns

end Machine

end Tapeworks
