import Tapeworks.Code
import Tapeworks.Compile
import Tapeworks.Text.Numeral

/-! The code of a diagram: its compiled rules in table order, where a rule without a write symbol writes what it reads.
    Since the end of a code marks the final state, the last rule that enters a final state is moved there. -/

namespace Tapeworks

inductive EncodeError
  | nonNumericState (id : String)
  | unencodableSymbol (symbol : Char)
  | stateTooLarge (n : Nat)
  deriving DecidableEq, Repr

namespace Code

/-- The largest number of a state in a code. -/
def largestState : Nat := 1 <<< 20

/-- A rule between numbered states whose symbols need not have a code. -/
structure NumberedRule where
  source : Nat
  target : Nat
  read : Char
  write : Char
  direction : Direction
  deriving DecidableEq, Repr

end Code

def EncodeError.message : EncodeError → String
  | nonNumericState id => "state id '" ++ id ++ "' is not a positive integer"
  | unencodableSymbol c => "symbol '" ++ String.singleton c ++ "' cannot be encoded"
  | stateTooLarge n => "state " ++ toString n ++ " is too large to encode (limit " ++ toString Code.largestState ++ ")"

namespace Code

/-- The number that a state id stands for. -/
def stateNumber (id : String) : Except EncodeError Nat :=
  match Text.word? id with
  | none => .error (.nonNumericState id)
  | some n =>
    if n > largestState then .error (.stateTooLarge n)
    else if n > 0 then .ok n
    else .error (.nonNumericState id)

def sign (c : Char) : Except EncodeError Sign :=
  match Sign.ofSymbol? c with
  | some s => .ok s
  | none => .error (.unencodableSymbol c)

namespace NumberedRule

def ofTransition (state : State) (rule : Transition) : Except EncodeError NumberedRule := do
  let source ← stateNumber state.id
  let target ← stateNumber rule.target.id
  return ⟨source, target, rule.read, rule.write.getD rule.read, rule.direction⟩

def code (r : NumberedRule) : Except EncodeError Rule := do
  let read ← sign r.read
  let write ← sign r.write
  return ⟨r.source, r.target, read, write, r.direction⟩

/-- Whether the table has the rule's target, by the numeral of its number, as a final state. -/
def entersFinal (t : Table) (r : NumberedRule) : Bool :=
  (t.state? (Text.numeral r.target)).any (·.isFinal)

end NumberedRule

/-- Moves the last element that satisfies `p`, if there is one, to the end. -/
def moveLastToEnd (p : α → Bool) (l : List α) : List α :=
  match l.reverse.find? p with
  | none => l
  | some a => (l.reverse.eraseP p).reverse ++ [a]

/-- The rules of the code of a table, in order. -/
def rulesOf (t : Table) : Except EncodeError (List Rule) := do
  let numbered ← t.rules.mapM fun (state, rule) => NumberedRule.ofTransition state rule
  (moveLastToEnd (NumberedRule.entersFinal t) numbered).mapM NumberedRule.code

end Code

/-- The code of a diagram, empty when no rule compiles. -/
def encode (d : Diagram) : Except EncodeError String := do
  return Code.write (← Code.rulesOf (compile d).table)

end Tapeworks
