import Tapeworks.Table
import Tapeworks.Text.Numeral

/-! Structural problems of a table: no single start state, no final state, and states that no path of rules enters. -/

namespace Tapeworks

inductive Problem
  | startState (found : Nat)
  | noFinalState
  | unreachableStates (ids : List String)
  | finalUnreachable
  deriving DecidableEq, Repr

def Problem.message : Problem → String
  | startState n => "expected exactly one start state, found " ++ toString n
  | noFinalState => "no state is marked as final"
  | unreachableStates ids => "unreachable states: " ++ String.intercalate ", " ids
  | finalUnreachable => "no final state is reachable from the start state"

namespace Table

/-! ### Reachability -/

def withoutRow (id : String) (rows : List Row) : List Row :=
  rows.filter (·.state.id ≠ id)

theorem withoutRow_shorter {id : String} {rows : List Row} {row : Row}
    (h : rows.find? (·.state.id = id) = some row) : (withoutRow id rows).length < rows.length :=
  List.length_filter_lt_length_iff_exists.mpr
    ⟨row, List.mem_of_find?_eq_some h, by simpa using List.find?_some h⟩

/-- The rows that are left when all rows on paths from the waiting ids are taken away. -/
def unreached (rows : List Row) : List String → List Row
  | [] => rows
  | id :: waiting =>
    match h : rows.find? (·.state.id = id) with
    | none => unreached rows waiting
    | some row =>
      have := withoutRow_shorter h
      unreached (withoutRow id rows) (row.transitions.map (·.target.id) ++ waiting)
termination_by waiting => (rows.length, waiting.length)

/-- The states that no path of rules from `start` enters. -/
def unreachable (t : Table) (start : State) : List State :=
  (unreached t.rows [start.id]).map (·.state)

/-- Ids that are numbers come in the order of the numbers, ids that are none count as the last word. -/
def idBefore (a b : String) : Bool :=
  let m := (Text.word? a).getD (Text.wordLimit - 1)
  let n := (Text.word? b).getD (Text.wordLimit - 1)
  m < n || (m == n && a ≤ b)

/-! ### Checks -/

def checkStart (t : Table) : Option Problem :=
  match t.start with
  | .ok _ => none
  | .error _ => some (.startState t.startStates.length)

def checkFinal (t : Table) : Option Problem :=
  if t.states.any (·.isFinal) then none else some .noFinalState

def checkUnreachable (t : Table) : Option Problem :=
  match t.start with
  | .error _ => none
  | .ok start =>
    match (t.unreachable start).map (·.id) with
    | [] => none
    | ids => some (.unreachableStates (ids.mergeSort idBefore))

def checkFinalReachable (t : Table) : Option Problem :=
  match t.start with
  | .error _ => none
  | .ok start =>
    let final := t.states.filter (·.isFinal)
    let missed := t.unreachable start
    if !final.isEmpty && final.all (fun s => missed.any (·.id = s.id)) then some .finalUnreachable else none

/-- Every problem of the table, in the order of the checks. -/
def problems (t : Table) : List Problem :=
  [t.checkStart, t.checkFinal, t.checkUnreachable, t.checkFinalReachable].filterMap id

end Table

end Tapeworks
