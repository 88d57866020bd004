import Tapeworks.Code.Reader
import Tapeworks.Layout
import Tapeworks.Text.Numeral

/-! The diagram of a code. Its states are the numbers of the code in the order in which they are met, and the target of
    the last rule is its only final state. Rules with the same ends share an edge, in the order in which such ends are
    met. -/

namespace Tapeworks.Code

/-- An edge in the making: its ends and the specs of its label, last first. -/
structure Bundle where
  source : Nat
  target : Nat
  specs : List String
  deriving DecidableEq, Repr

namespace Bundle

def edge (b : Bundle) : Edge :=
  Edge.between (Text.numeral b.source) (Text.numeral b.target) (String.intercalate ";" b.specs.reverse)

/-- Adds a rule to the bundle with its ends, or to a new one at the end. -/
def add (r : Rule) : List Bundle → List Bundle
  | [] => [⟨r.source, r.target, [r.spec]⟩]
  | b :: bs =>
    if b.source = r.source ∧ b.target = r.target then { b with specs := r.spec :: b.specs } :: bs
    else b :: add r bs

end Bundle

/-- The numbers met so far, last first, and the bundles met so far. -/
structure Sketch where
  numbers : List Nat
  bundles : List Bundle

namespace Sketch

def meet (n : Nat) (numbers : List Nat) : List Nat :=
  if n ∈ numbers then numbers else n :: numbers

def add (s : Sketch) (r : Rule) : Sketch where
  numbers := meet r.target (meet r.source s.numbers)
  bundles := Bundle.add r s.bundles

def diagram (s : Sketch) (final : Nat) : Diagram where
  states := s.numbers.reverse.map fun n => { id := Text.numeral n, isFinal := decide (n = final) }
  edges := s.bundles.map Bundle.edge

end Sketch

/-- The diagram of the rules, of which `last` is the last one. -/
def draw (rules : List Rule) (last : Rule) : Diagram :=
  (rules.foldl Sketch.add ⟨[], []⟩).diagram last.target

end Code

/-- The diagram of a code, every state at the origin. -/
def decode (text : String) : Except DecodeError Diagram := do
  let rules ← Code.read text
  match rules.getLast? with
  | none => .error .empty
  | some last => return Code.draw rules last

/-- The diagram of a code, arranged by a layout. -/
def decodeWith (text : String) (layout : Layout) : Except DecodeError Diagram := do
  return (← decode text).arrange layout

end Tapeworks
