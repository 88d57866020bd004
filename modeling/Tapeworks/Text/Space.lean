/-! White space and its removal from both ends of a text. White space is the Unicode property White_Space. -/

namespace Tapeworks.Text

/-- The code points with the property White_Space, as closed ranges in ascending order. -/
def spaceRanges : List (Nat × Nat) :=
  [(0x09, 0x0D), (0x20, 0x20), (0x85, 0x85), (0xA0, 0xA0), (0x1680, 0x1680), (0x2000, 0x200A), (0x2028, 0x2029),
   (0x202F, 0x202F), (0x205F, 0x205F), (0x3000, 0x3000)]

def isSpace (c : Char) : Bool :=
  spaceRanges.any fun (low, high) => low ≤ c.toNat && c.toNat ≤ high

def trimLeft (cs : List Char) : List Char :=
  cs.dropWhile isSpace

def trim (cs : List Char) : List Char :=
  (trimLeft (trimLeft cs).reverse).reverse

end Tapeworks.Text
