import Tapeworks.Code
import Tapeworks.Text.Space

/-! Reading a code. White space around it does not count, but positions in errors are those in the whole text. -/

namespace Tapeworks

/-- A part of a rule that a code can end before. -/
inductive Code.Part
  | source
  | sourceEnd
  | target
  | targetEnd
  | read
  | write
  | move
  deriving DecidableEq, Repr

def Code.Part.description : Code.Part → String
  | source => "source state"
  | sourceEnd => "'b' after source state"
  | target => "target state"
  | targetEnd => "'b' after target state"
  | read => "read symbol"
  | write => "write symbol"
  | move => "move"

inductive DecodeError
  | empty
  | invalidCharacter (position : Nat) (found : Char)
  | unexpectedEnd (position : Nat) (expected : Code.Part)
  | zeroState (position : Nat)
  deriving DecidableEq, Repr

namespace DecodeError

def message : DecodeError → String
  | empty => "encoding is empty"
  | invalidCharacter position c => "invalid character '" ++ String.singleton c ++ "' at position " ++ toString position
  | unexpectedEnd position part => "unexpected end of encoding at position " ++ toString position ++ ": expected " ++
      part.description
  | zeroState position => "state number at position " ++ toString position ++ " is zero"

/-- The error in a text with `offset` more characters in front. -/
def shift (offset : Nat) : DecodeError → DecodeError
  | empty => empty
  | invalidCharacter position c => invalidCharacter (position + offset) c
  | unexpectedEnd position part => unexpectedEnd (position + offset) part
  | zeroState position => zeroState (position + offset)

end DecodeError

namespace Code

/-! ### One rule -/

/-- The unread letters and the position of the first of them. -/
structure Cursor where
  position : Nat
  rest : List Char

namespace Cursor

def letter (part : Part) (c : Cursor) : Except DecodeError (Char × Cursor) :=
  match c.rest with
  | [] => .error (.unexpectedEnd c.position part)
  | x :: rest => .ok (x, ⟨c.position + 1, rest⟩)

/-- A run of one or more `a`s. -/
def number (part : Part) (c : Cursor) : Except DecodeError (Nat × Cursor) :=
  match (c.rest.takeWhile (· = 'a')).length with
  | 0 => if c.rest.isEmpty then .error (.unexpectedEnd c.position part) else .error (.zeroState c.position)
  | n + 1 => .ok (n + 1, ⟨c.position + (n + 1), c.rest.drop (n + 1)⟩)

def sign (part : Part) (c : Cursor) : Except DecodeError (Sign × Cursor) := do
  let (first, c) ← c.letter part
  let (second, c) ← c.letter part
  return (Sign.ofLetters first second, c)

def rule (c : Cursor) : Except DecodeError (Rule × Cursor) := do
  let (source, c) ← c.number .source
  let (_, c) ← c.letter .sourceEnd
  let (target, c) ← c.number .target
  let (_, c) ← c.letter .targetEnd
  let (read, c) ← c.sign .read
  let (write, c) ← c.sign .write
  let (move, c) ← c.letter .move
  return (⟨source, target, read, write, ofMoveLetter move⟩, c)

/-! ### Lengths -/

theorem except_bind_eq_ok {x : Except ε α} {f : α → Except ε β} {b : β} (h : (x >>= f) = .ok b) :
    ∃ a, x = .ok a ∧ f a = .ok b := by
  cases x with
  | error e => cases h
  | ok a => exact ⟨a, rfl, h⟩

theorem letter_shorter {part : Part} {c d : Cursor} {x : Char} (h : c.letter part = .ok (x, d)) :
    d.rest.length < c.rest.length := by
  unfold letter at h
  split at h
  · cases h
  · rename_i hrest
    cases h
    simp [hrest]

theorem number_le {part : Part} {c d : Cursor} {n : Nat} (h : c.number part = .ok (n, d)) :
    d.rest.length ≤ c.rest.length := by
  unfold number at h
  split at h
  · split at h <;> cases h
  · cases h
    simp

theorem sign_le {part : Part} {c d : Cursor} {s : Sign} (h : c.sign part = .ok (s, d)) :
    d.rest.length ≤ c.rest.length := by
  obtain ⟨⟨_, c₁⟩, h₁, h⟩ := except_bind_eq_ok h
  obtain ⟨⟨_, c₂⟩, h₂, h⟩ := except_bind_eq_ok h
  cases h
  exact Nat.le_of_lt (Nat.lt_trans (letter_shorter h₂) (letter_shorter h₁))

theorem rule_shorter {c d : Cursor} {r : Rule} (h : c.rule = .ok (r, d)) : d.rest.length < c.rest.length := by
  obtain ⟨⟨_, c₁⟩, h₁, h⟩ := except_bind_eq_ok h
  obtain ⟨⟨_, c₂⟩, h₂, h⟩ := except_bind_eq_ok h
  obtain ⟨⟨_, c₃⟩, h₃, h⟩ := except_bind_eq_ok h
  obtain ⟨⟨_, c₄⟩, h₄, h⟩ := except_bind_eq_ok h
  obtain ⟨⟨_, c₅⟩, h₅, h⟩ := except_bind_eq_ok h
  obtain ⟨⟨_, c₆⟩, h₆, h⟩ := except_bind_eq_ok h
  obtain ⟨⟨_, c₇⟩, h₇, h⟩ := except_bind_eq_ok h
  cases h
  have l₁ := number_le h₁
  have l₂ := letter_shorter h₂
  have l₃ := number_le h₃
  have l₄ := letter_shorter h₄
  have l₅ := sign_le h₅
  have l₆ := sign_le h₆
  have l₇ := letter_shorter h₇
  exact Nat.lt_of_lt_of_le l₇ (Nat.le_trans l₆ (Nat.le_trans l₅ (Nat.le_trans (Nat.le_of_lt l₄)
    (Nat.le_trans l₃ (Nat.le_trans (Nat.le_of_lt l₂) l₁)))))

end Cursor

/-! ### Whole codes -/

/-- The rules from a cursor to the end, after those already found. -/
def rulesFrom (found : List Rule) (c : Cursor) : Except DecodeError (List Rule) :=
  if c.rest.isEmpty then .ok found.reverse
  else
    match h : c.rule with
    | .error e => .error e
    | .ok (r, d) =>
      have := Cursor.rule_shorter h
      rulesFrom (r :: found) d
termination_by c.rest.length

def isLetter (c : Char) : Bool :=
  c = 'a' || c = 'b'

/-- The rules of a text without white space around it. -/
def readTrimmed (cs : List Char) : Except DecodeError (List Rule) :=
  if cs.isEmpty then .error .empty
  else
    match cs.dropWhile isLetter with
    | c :: _ => .error (.invalidCharacter (cs.takeWhile isLetter).length c)
    | [] => rulesFrom [] ⟨0, cs⟩

def read (text : String) : Except DecodeError (List Rule) :=
  let cs := text.toList
  (readTrimmed (Text.trim cs)).mapError (·.shift (cs.takeWhile Text.isSpace).length)

end Code

end Tapeworks
