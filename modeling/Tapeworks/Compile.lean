import Tapeworks.Label
import Tapeworks.Table

/-! Compiling a diagram to its table. A rule that cannot enter the table is dropped and leaves a warning; the others
    still make a table that can run. -/

namespace Tapeworks

/-- A part of a diagram that did not enter the table. -/
inductive Warning
  | malformedRule (edge spec : String) (fields : Nat)
  | invalidSymbol (edge spec field : String)
  | duplicateSymbol (edge state : String) (symbol : Char)
  | danglingEdge (edge state : String)
  deriving DecidableEq, Repr

namespace Warning

def message : Warning → String
  | malformedRule edge spec n => "edge " ++ edge ++ ": rule '" ++ spec ++ "' has " ++ toString n ++
      " fields, expected 2 or 3"
  | invalidSymbol edge spec field => "edge " ++ edge ++ ": rule '" ++ spec ++ "' has invalid symbol '" ++ field ++ "'"
  | duplicateSymbol edge state c => "edge " ++ edge ++ ": state " ++ state ++ " already has a rule reading '" ++
      String.singleton c ++ "'"
  | danglingEdge edge state => "edge " ++ edge ++ ": unknown state " ++ state

def ofFlaw (edge : String) (spec : Label.Spec) : Label.Flaw → Warning
  | .fieldCount n => malformedRule edge spec.text n
  | .symbol field => invalidSymbol edge spec.text field

end Warning

/-! ### Labels of edges -/

namespace Edge

/-- The rules of the label, in order. -/
def rules (e : Edge) : List Label.Rule :=
  (Label.specs e.label).filterMap fun spec => spec.rule.toOption

/-- A warning for every spec of the label that is no rule, in order. -/
def rejections (e : Edge) : List Warning :=
  (Label.specs e.label).filterMap fun spec => match spec.rule with
    | .ok _ => none
    | .error flaw => some (.ofFlaw e.id spec flaw)

end Edge

/-! ### Compilation -/

structure Compilation where
  table : Table
  warnings : Array Warning
  deriving DecidableEq, Repr

namespace Compilation

def isClean (c : Compilation) : Bool :=
  c.warnings.isEmpty

/-- Adds a rule of the edge, unless the source reads its symbol already. -/
def addRule (edge : Edge) (target : State) (c : Compilation) (rule : Label.Rule) : Compilation :=
  if c.table.reads edge.source rule.read then
    { c with warnings := c.warnings.push (.duplicateSymbol edge.id edge.source rule.read) }
  else
    { c with table := c.table.push edge.source ⟨rule.read, rule.write, rule.direction, target⟩ }

/-- Adds the rules of an edge, unless one of its ends is missing. -/
def addEdge (c : Compilation) (edge : Edge) : Compilation :=
  match c.table.state? edge.source, c.table.state? edge.target with
  | some _, some target =>
    edge.rules.foldl (addRule edge target) { c with warnings := c.warnings ++ edge.rejections }
  | none, _ => { c with warnings := c.warnings.push (.danglingEdge edge.id edge.source) }
  | some _, none => { c with warnings := c.warnings.push (.danglingEdge edge.id edge.target) }

end Compilation

/-- Takes the edges of the diagram, and the rules of each label, in order. -/
def compile (d : Diagram) : Compilation :=
  d.edges.foldl Compilation.addEdge ⟨.ofStates d.states, #[]⟩

end Tapeworks
