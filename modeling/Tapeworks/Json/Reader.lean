import Tapeworks.Json.Token

/-! The value that a JSON text stands for. The reader takes one token at a time and keeps the containers it is inside
    of in a list, so nesting costs no recursion. -/

namespace Tapeworks.Json

/-- A container that is not closed: what it holds so far, last first, and the name of the member being read. -/
inductive Frame
  | array (items : List Value)
  | object (members : List (Text × Value)) (name : Text)

/-- What has been read and what may follow, inside the given containers, innermost first. -/
inductive Place
  | value (outer : List Frame)
  | firstItem (outer : List Frame)
  | firstName (outer : List Frame)
  | name (members : List (Text × Value)) (outer : List Frame)
  | colon (members : List (Text × Value)) (name : Text) (outer : List Frame)
  | after (v : Value) (outer : List Frame)

namespace Place

/-- A value begins with the token. -/
def beginValue (outer : List Frame) : Token → Option Place
  | .openArray => some (firstItem outer)
  | .openObject => some (firstName outer)
  | .null => some (after .null outer)
  | .bool b => some (after (.bool b) outer)
  | .number n => some (after (.number n) outer)
  | .string s => some (after (.string s) outer)
  | _ => none

def next (place : Place) (token : Token) : Option Place :=
  match place, token with
  | value outer, t => beginValue outer t
  | firstItem outer, .closeArray => some (after (.array []) outer)
  | firstItem outer, t => beginValue (.array [] :: outer) t
  | firstName outer, .closeObject => some (after (.object []) outer)
  | firstName outer, .string s => some (colon [] s outer)
  | name members outer, .string s => some (colon members s outer)
  | colon members s outer, .colon => some (value (.object members s :: outer))
  | after v (.array items :: outer), .comma => some (value (.array (v :: items) :: outer))
  | after v (.array items :: outer), .closeArray => some (after (.array (v :: items).reverse) outer)
  | after v (.object members s :: outer), .comma => some (name ((s, v) :: members) outer)
  | after v (.object members s :: outer), .closeObject => some (after (.object ((s, v) :: members).reverse) outer)
  | _, _ => none

end Place

def valueOfTokens? (tokens : List Token) : Option Value :=
  match tokens.foldlM Place.next (.value []) with
  | some (.after v []) => some v
  | _ => none

/-- The value of a text, however deep. -/
def read? (text : String) : Option Value := do
  valueOfTokens? (← tokens text.toList)

/-! ### Whole texts -/

/-- The number of containers that are open after a token, and the most that were. -/
def deepen : Nat × Nat → Token → Nat × Nat
  | (depth, deepest), .openArray => (depth + 1, max deepest (depth + 1))
  | (depth, deepest), .openObject => (depth + 1, max deepest (depth + 1))
  | (depth, deepest), .closeArray => (depth - 1, deepest)
  | (depth, deepest), .closeObject => (depth - 1, deepest)
  | (depth, deepest), _ => (depth, deepest)

/-- How deep the containers of a token list nest. -/
def nesting (tokens : List Token) : Nat :=
  (tokens.foldl deepen (0, 0)).2

/-- Whether the token stands for something by itself: its number is finite and its string is Unicode text. -/
def Token.isSound : Token → Bool
  | .number n => n.binary64?.isSome
  | .string s => s.isSome
  | _ => true

/-- The deepest nesting of a text that is kept whole. -/
def deepestWhole : Nat := 127

/-- The value of a text that is kept whole before it is understood, so that no part of it may be unsound, not even one
    that is not asked for. -/
def readWhole? (text : String) : Option Value := do
  let tokens ← tokens text.toList
  if tokens.all Token.isSound && nesting tokens ≤ deepestWhole then valueOfTokens? tokens else none

end Tapeworks.Json
