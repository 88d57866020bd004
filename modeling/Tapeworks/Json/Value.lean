import Tapeworks.Json.Number

/-! JSON values and the tokens of their texts. -/

namespace Tapeworks.Json

/-- What a string literal stands for: none if an escape in it is half of a surrogate pair. -/
abbrev Text := Option String

/-- Members of an object keep their order, and a name may occur again. -/
inductive Value
  | null
  | bool (b : Bool)
  | number (n : Number)
  | string (s : Text)
  | array (items : List Value)
  | object (members : List (Text × Value))
  deriving Repr, Inhabited

inductive Token
  | openArray
  | closeArray
  | openObject
  | closeObject
  | comma
  | colon
  | null
  | bool (b : Bool)
  | number (n : Number)
  | string (s : Text)
  deriving DecidableEq, Repr

namespace Value

def text (s : String) : Value :=
  .string (some s)

def symbol (c : Char) : Value :=
  text (String.singleton c)

def word (n : Nat) : Value :=
  .number (Number.ofWord n)

def binary64 (x : Binary64) : Value :=
  .number (Number.ofBinary64 x)

/-- An object with the given members in order. -/
def record (members : List (String × Value)) : Value :=
  .object (members.map fun (name, v) => (some name, v))

end Value

end Tapeworks.Json
