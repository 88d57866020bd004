/-! Decimal numerals. A word is a natural number below `wordLimit`; its numeral has no leading zeros, but a reader
    also takes leading zeros and one leading `+`. -/

namespace Tapeworks.Text

/-- Words have 64 bits. -/
def wordLimit : Nat := 1 <<< 64

/-- The value of a non-empty text of the digits 0 to 9. -/
def digitsValue? (cs : List Char) : Option Nat :=
  if cs.isEmpty || !cs.all Char.isDigit then none else some (Nat.ofDigitChars 10 cs 0)

def dropPlus : List Char → List Char
  | '+' :: cs => cs
  | cs => cs

/-- The word that a numeral stands for. -/
def word? (s : String) : Option Nat := do
  let n ← digitsValue? (dropPlus s.toList)
  if n < wordLimit then some n else none

/-- The value of a hexadecimal digit. -/
def hexDigit? (c : Char) : Option Nat :=
  if '0' ≤ c ∧ c ≤ '9' then some (c.toNat - '0'.toNat)
  else if 'a' ≤ c ∧ c ≤ 'f' then some (c.toNat - 'a'.toNat + 10)
  else if 'A' ≤ c ∧ c ≤ 'F' then some (c.toNat - 'A'.toNat + 10)
  else none

def numeral (n : Nat) : String :=
  Nat.repr n

end Tapeworks.Text
