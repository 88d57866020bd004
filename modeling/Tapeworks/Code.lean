import Tapeworks.Symbol

/-! Codes: machines as texts over the letters a and b. A rule is a run of `a`s for its source, a `b`, a run of `a`s for
    its target, a `b`, two letters for the symbol read, two for the symbol written, and one for the move. A code is a
    sequence of rules. -/

namespace Tapeworks.Code

/-- The symbols that have a code. -/
inductive Sign
  | a
  | b
  | blank
  | hash
  deriving DecidableEq, Repr

namespace Sign

def symbol : Sign → Char
  | a => 'a'
  | b => 'b'
  | blank => Tapeworks.blank
  | hash => '#'

def ofSymbol? (c : Char) : Option Sign :=
  if c = 'a' then some a
  else if c = 'b' then some b
  else if c = Tapeworks.blank then some blank
  else if c = '#' then some hash
  else none

def letters : Sign → List Char
  | a => ['a', 'a']
  | b => ['a', 'b']
  | blank => ['b', 'a']
  | hash => ['b', 'b']

/-- The sign with the given two letters. Every letter but `a` counts as `b`. -/
def ofLetters (first second : Char) : Sign :=
  if first = 'a' then (if second = 'a' then a else b)
  else (if second = 'a' then blank else hash)

end Sign

def moveLetter : Direction → Char
  | .left => 'a'
  | .right => 'b'

def ofMoveLetter (c : Char) : Direction :=
  if c = 'a' then .left else .right

/-- A rule between numbered states. -/
structure Rule where
  source : Nat
  target : Nat
  read : Sign
  write : Sign
  direction : Direction
  deriving DecidableEq, Repr

/-! ### Writing -/

namespace Rule

def run (n : Nat) : String :=
  String.ofList (List.replicate n 'a')

def text (r : Rule) : String :=
  run r.source ++ "b" ++ run r.target ++ "b" ++
    String.ofList (r.read.letters ++ r.write.letters ++ [moveLetter r.direction])

/-- The rule as a label states it. -/
def spec (r : Rule) : String :=
  String.ofList [r.read.symbol, ',', r.write.symbol, ',', r.direction.symbol]

end Rule

def write (rules : List Rule) : String :=
  String.join (rules.map Rule.text)

end Tapeworks.Code
