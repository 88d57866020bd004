/-! Tape symbols and head directions. A symbol is any character; `_` is the blank. -/

namespace Tapeworks

def blank : Char := '_'

inductive Direction
  | left
  | right
  deriving DecidableEq, Repr

namespace Direction

/-- The direction that a label's last field names: `<` is left and every other text is right. -/
def ofField (field : String) : Direction :=
  if field = "<" then left else right

def symbol : Direction → Char
  | left => '<'
  | right => '>'

end Direction

end Tapeworks
