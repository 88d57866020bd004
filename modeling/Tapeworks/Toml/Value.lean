/-! TOML values. Floats and dates keep their text. A table remembers how it was made, since that decides what may still
    be added to it. -/

namespace Tapeworks.Toml

/-- How a table was made: by the path of a header, by a dotted key, by its own header, or in braces. -/
inductive Origin
  | implied
  | dotted
  | header
  | inline
  deriving DecidableEq, Repr

/-- Entries keep the order in which their keys are first met, and the elements of an array of tables come last
    first. -/
inductive Value
  | string (s : String)
  | integer (n : Int)
  | float (literal : String)
  | boolean (b : Bool)
  | dateTime (literal : String)
  | array (items : List Value)
  | table (origin : Origin) (entries : List (String × Value))
  | tables (elements : List (List (String × Value)))
  deriving Repr, Inhabited

abbrev Entries := List (String × Value)

end Tapeworks.Toml
