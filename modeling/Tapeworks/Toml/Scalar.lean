import Tapeworks.Text.Numeral
import Tapeworks.Toml.Value

/-! TOML numbers, dates and booleans. Each is a text without blanks, but for the one blank that may stand between a
    date and a time. -/

namespace Tapeworks.Toml

/-! ### Digits -/

def isHexDigit (c : Char) : Bool :=
  (Text.hexDigit? c).isSome

def isOctalDigit (c : Char) : Bool :=
  '0' ≤ c && c ≤ '7'

def isBinaryDigit (c : Char) : Bool :=
  c = '0' || c = '1'

def digitsValue (base : Nat) (ds : List Char) : Nat :=
  ds.foldl (fun n d => base * n + (Text.hexDigit? d).getD 0) 0

/-- The digits of a text in which single underscores may stand between digits. -/
def grouped? (isDigit : Char → Bool) (cs : List Char) : Option (List Char) :=
  let groups := cs.splitOn '_'
  if groups.all fun g => !g.isEmpty && g.all isDigit then some groups.flatten else none

/-- Decimal digits that start with a zero only when they are a single zero. -/
def whole? (cs : List Char) : Option (List Char) := do
  let ds ← grouped? Char.isDigit cs
  if ds.head? = some '0' && ds.length ≠ 1 then none else some ds

def signed : List Char → Bool × List Char
  | '-' :: cs => (true, cs)
  | '+' :: cs => (false, cs)
  | cs => (false, cs)

/-! ### Integers -/

/-- Two to the 63rd. -/
def integerLimit : Nat := 1 <<< 63

def inRange? (n : Int) : Option Int :=
  if -(integerLimit : Int) ≤ n ∧ n < integerLimit then some n else none

def integer? : List Char → Option Int
  | '0' :: 'x' :: cs => do inRange? (digitsValue 16 (← grouped? isHexDigit cs))
  | '0' :: 'o' :: cs => do inRange? (digitsValue 8 (← grouped? isOctalDigit cs))
  | '0' :: 'b' :: cs => do inRange? (digitsValue 2 (← grouped? isBinaryDigit cs))
  | cs => do
    let (minus, cs) := signed cs
    let n : Int := digitsValue 10 (← whole? cs)
    inRange? (if minus then -n else n)

/-! ### Floats -/

/-- The parts of a text before and after the first character that satisfies `p`, if there is one. -/
def cut (p : Char → Bool) (cs : List Char) : List Char × Option (List Char) :=
  match cs.dropWhile (!p ·) with
  | [] => (cs, none)
  | _ :: after => (cs.takeWhile (!p ·), some after)

/-- The least number that rounds past the largest binary64 number. -/
def overflow : Nat := (1 <<< 54 - 1) <<< 970

/-- Whether `digits * 10 ^ exponent` reaches `overflow`, which lies between 10 ^ 308 and 10 ^ 309. -/
def overflows (digits : List Char) (exponent : Int) : Bool :=
  let ds := digits.dropWhile (· = '0')
  let point := ds.length + exponent
  if ds.isEmpty || point < 309 then false
  else if 309 < point then true
  else if 0 ≤ exponent then overflow ≤ digitsValue 10 ds * Nat.pow 10 exponent.toNat
  else overflow * Nat.pow 10 (-exponent).toNat ≤ digitsValue 10 ds

/-- Whether a text is a float. A positive one must not be past the largest binary64 number. -/
def isFloat (cs : List Char) : Bool :=
  let (minus, cs) := signed cs
  if cs = ['i', 'n', 'f'] || cs = ['n', 'a', 'n'] then true
  else
    let (mantissa, exponent) := cut (fun c => c = 'e' || c = 'E') cs
    let (whole, fraction) := cut (· = '.') mantissa
    if fraction.isNone && exponent.isNone then false
    else
      let parts : Option (List Char × List Char × Int) := do
        let whole ← whole? whole
        let fraction ← match fraction with
          | none => some []
          | some ds => grouped? Char.isDigit ds
        let exponent ← match exponent with
          | none => some 0
          | some ds =>
            let (down, ds) := signed ds
            (grouped? Char.isDigit ds).map fun ds =>
              let n : Int := digitsValue 10 ds
              if down then -n else n
        return (whole, fraction, exponent)
      match parts with
      | none => false
      | some (whole, fraction, exponent) => minus || !overflows (whole ++ fraction) (exponent - fraction.length)

/-! ### Dates and times -/

def isLeap (year : Nat) : Bool :=
  year % 4 = 0 && (year % 100 ≠ 0 || year % 400 = 0)

def daysIn (year month : Nat) : Nat :=
  if month = 2 then (if isLeap year then 29 else 28)
  else if month = 4 ∨ month = 6 ∨ month = 9 ∨ month = 11 then 30
  else 31

/-- The value of exactly `count` digits at the front of a text, and the rest of the text. -/
def fixedDigits? (count : Nat) (cs : List Char) : Option (Nat × List Char) :=
  let ds := cs.take count
  if ds.length = count && ds.all Char.isDigit then some (digitsValue 10 ds, cs.drop count) else none

def literally? (c : Char) : List Char → Option (List Char)
  | d :: cs => if c = d then some cs else none
  | [] => none

/-- The text after a full date. -/
def date? (cs : List Char) : Option (List Char) := do
  let (year, cs) ← fixedDigits? 4 cs
  let cs ← literally? '-' cs
  let (month, cs) ← fixedDigits? 2 cs
  let cs ← literally? '-' cs
  let (day, cs) ← fixedDigits? 2 cs
  if 1 ≤ month && month ≤ 12 && 1 ≤ day && day ≤ daysIn year month then some cs else none

/-- The text after an hour and a minute. -/
def hourMinute? (cs : List Char) : Option (List Char) := do
  let (hour, cs) ← fixedDigits? 2 cs
  let cs ← literally? ':' cs
  let (minute, cs) ← fixedDigits? 2 cs
  if hour ≤ 23 && minute ≤ 59 then some cs else none

/-- The text after a time of day. -/
def time? (cs : List Char) : Option (List Char) := do
  let cs ← literally? ':' (← hourMinute? cs)
  let (second, cs) ← fixedDigits? 2 cs
  if second ≤ 60 then
    match cs with
    | '.' :: ds =>
      let after := ds.dropWhile Char.isDigit
      if after.length < ds.length then some after else none
    | cs => some cs
  else none

/-- Whether a text is nothing or an offset from universal time. -/
def isOffset : List Char → Bool
  | [] => true
  | ['Z'] => true
  | ['z'] => true
  | '+' :: cs => hourMinute? cs = some []
  | '-' :: cs => hourMinute? cs = some []
  | _ => false

def isDate (cs : List Char) : Bool :=
  date? cs = some []

/-- Whether a text is a time of day, with an offset or without. -/
def isTime (cs : List Char) : Bool :=
  (time? cs).any isOffset

/-- Whether a text is a date, a time of day without an offset, or both with a `T` between them. -/
def isDateTime (cs : List Char) : Bool :=
  time? cs = some [] ||
    match date? cs with
    | some [] => true
    | some ('T' :: cs) => isTime cs
    | some ('t' :: cs) => isTime cs
    | _ => false

/-! ### Scalars -/

def scalar? (cs : List Char) : Option Value :=
  if cs = ['t', 'r', 'u', 'e'] then some (.boolean true)
  else if cs = ['f', 'a', 'l', 's', 'e'] then some (.boolean false)
  else if isDateTime cs then some (.dateTime (String.ofList cs))
  else if isFloat cs then some (.float (String.ofList cs))
  else (integer? cs).map .integer

/-- The characters that scalars consist of. -/
def isScalarChar (c : Char) : Bool :=
  c.isAlphanum || c = '+' || c = '-' || c = '.' || c = '_' || c = ':'

/-- The scalar at the front of a text and the rest of the text. -/
def readScalar? (cs : List Char) : Option (Value × List Char) := do
  let first := cs.takeWhile isScalarChar
  let rest := cs.dropWhile isScalarChar
  match isDate first, rest with
  | true, ' ' :: after =>
    let second := after.takeWhile isScalarChar
    if isTime second then
      return (.dateTime (String.ofList (first ++ ' ' :: second)), after.dropWhile isScalarChar)
    else return (← scalar? first, rest)
  | _, _ => return (← scalar? first, rest)

end Tapeworks.Toml
