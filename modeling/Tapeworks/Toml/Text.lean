import Tapeworks.Text.Numeral
import Tapeworks.Toml.Value

/-! TOML strings and keys: basic strings in double quotes with escapes, literal strings in single quotes without, and
    both in three quotes over several lines. -/

namespace Tapeworks.Toml

/-! ### Characters -/

def isBlank (c : Char) : Bool :=
  c = ' ' || c = '\t'

def skipBlanks (cs : List Char) : List Char :=
  cs.dropWhile isBlank

def isControl (c : Char) : Bool :=
  (c.toNat < 0x20 && c ≠ '\t') || c.toNat = 0x7F

/-- The text after a line end at the front. -/
def newLine? : List Char → Option (List Char)
  | '\n' :: cs => some cs
  | '\r' :: '\n' :: cs => some cs
  | _ => none

/-! ### Escapes -/

/-- The character whose code the digits give. -/
def codePoint? (digits : List Char) : Option Char := do
  let n := (← digits.mapM Text.hexDigit?).foldl (fun n d => 16 * n + d) 0
  if n.isValidChar then some (Char.ofNat n) else none

/-- The character that a backslash and the given character stand for. -/
def escaped? (c : Char) : Option Char :=
  match c with
  | 'b' => some '\x08'
  | 't' => some '\t'
  | 'n' => some '\n'
  | 'f' => some '\x0c'
  | 'r' => some '\r'
  | '"' => some '"'
  | '\\' => some '\\'
  | _ => none

/-- The character of an escape, given the text after the backslash, and the rest of the text. -/
def escape? : List Char → Option (Char × List Char)
  | 'u' :: a :: b :: c :: d :: cs => do
    return (← codePoint? [a, b, c, d], cs)
  | 'U' :: a :: b :: c :: d :: e :: f :: g :: h :: cs => do
    return (← codePoint? [a, b, c, d, e, f, g, h], cs)
  | c :: cs => do
    return (← escaped? c, cs)
  | [] => none

theorem escape?_shorter {cs rest : List Char} {c : Char} (h : escape? cs = some (c, rest)) :
    rest.length < cs.length := by
  unfold escape? at h
  split at h
  case h_4 => cases h
  all_goals
    obtain ⟨_, -, h⟩ := Option.bind_eq_some_iff.mp h
    obtain ⟨-, rfl⟩ := Prod.mk.inj (Option.some.inj h)
    simp only [List.length_cons]
    omega

/-! ### Strings on one line -/

/-- The string up to its closing quote, after the characters already found, and the rest of the text. -/
def basic? (found : List Char) : List Char → Option (String × List Char)
  | [] => none
  | '"' :: cs => some (String.ofList found.reverse, cs)
  | '\\' :: cs =>
    match h : escape? cs with
    | some (c, rest) =>
      have := escape?_shorter h
      basic? (c :: found) rest
    | none => none
  | c :: cs => if isControl c then none else basic? (c :: found) cs
termination_by cs => cs.length
decreasing_by
  · exact Nat.lt_succ_of_lt this
  · exact Nat.lt_succ_self _

def literal? (found : List Char) : List Char → Option (String × List Char)
  | [] => none
  | '\x27' :: cs => some (String.ofList found.reverse, cs)
  | c :: cs => if isControl c then none else literal? (c :: found) cs

/-! ### Strings over several lines -/

def skipBlanksAndLineEnds : List Char → List Char
  | ' ' :: cs => skipBlanksAndLineEnds cs
  | '\t' :: cs => skipBlanksAndLineEnds cs
  | '\n' :: cs => skipBlanksAndLineEnds cs
  | '\r' :: '\n' :: cs => skipBlanksAndLineEnds cs
  | cs => cs

/-- The text after the blanks and line ends at the front, if a line ends first. -/
def continuation? (cs : List Char) : Option (List Char) :=
  (newLine? (skipBlanks cs)).map skipBlanksAndLineEnds

/-- As `basic?`, up to three quotes, which up to two more may precede. A backslash at the end of a line removes the
    white space after it. Each character costs one unit of `fuel`. -/
def longBasic? (found : List Char) : (fuel : Nat) → List Char → Option (String × List Char)
  | _, '"' :: '"' :: '"' :: '"' :: '"' :: cs => some (String.ofList ('"' :: '"' :: found).reverse, cs)
  | _, '"' :: '"' :: '"' :: '"' :: cs => some (String.ofList ('"' :: found).reverse, cs)
  | _, '"' :: '"' :: '"' :: cs => some (String.ofList found.reverse, cs)
  | fuel + 1, '\\' :: cs =>
    match continuation? cs with
    | some cs => longBasic? found fuel cs
    | none =>
      match escape? cs with
      | some (c, cs) => longBasic? (c :: found) fuel cs
      | none => none
  | fuel + 1, c :: cs =>
    match newLine? (c :: cs) with
    | some cs => longBasic? ('\n' :: found) fuel cs
    | none => if isControl c then none else longBasic? (c :: found) fuel cs
  | _, _ => none

/-- As `literal?`, up to three quotes, which up to two more may precede. -/
def longLiteral? (found : List Char) : List Char → Option (String × List Char)
  | [] => none
  | '\x27' :: '\x27' :: '\x27' :: '\x27' :: '\x27' :: cs => some (String.ofList ('\x27' :: '\x27' :: found).reverse, cs)
  | '\x27' :: '\x27' :: '\x27' :: '\x27' :: cs => some (String.ofList ('\x27' :: found).reverse, cs)
  | '\x27' :: '\x27' :: '\x27' :: cs => some (String.ofList found.reverse, cs)
  | '\n' :: cs => longLiteral? ('\n' :: found) cs
  | '\r' :: '\n' :: cs => longLiteral? ('\n' :: found) cs
  | c :: cs => if isControl c then none else longLiteral? (c :: found) cs

/-- A line end at the very front of a long string does not belong to it. -/
def skipFirstLineEnd (cs : List Char) : List Char :=
  (newLine? cs).getD cs

/-- The string at the front of a text and the rest of the text. -/
def string? : List Char → Option (String × List Char)
  | '"' :: '"' :: '"' :: cs => longBasic? [] cs.length (skipFirstLineEnd cs)
  | '"' :: cs => basic? [] cs
  | '\x27' :: '\x27' :: '\x27' :: cs => longLiteral? [] (skipFirstLineEnd cs)
  | '\x27' :: cs => literal? [] cs
  | _ => none

/-! ### Keys -/

def isBareChar (c : Char) : Bool :=
  c.isAlphanum || c = '_' || c = '-'

/-- The simple key at the front of a text and the rest of the text. -/
def simpleKey? : List Char → Option (String × List Char)
  | '"' :: cs => basic? [] cs
  | '\x27' :: cs => literal? [] cs
  | cs =>
    let name := cs.takeWhile isBareChar
    if name.isEmpty then none else some (String.ofList name, cs.dropWhile isBareChar)

/-- The simple keys of a dotted key with at most `parts` parts, and the text after it and the blanks that follow. -/
def dottedKey? : (parts : Nat) → List Char → Option (List String × List Char)
  | 0, _ => none
  | parts + 1, cs => do
    let (key, cs) ← simpleKey? (skipBlanks cs)
    match skipBlanks cs with
    | '.' :: cs =>
      let (keys, cs) ← dottedKey? parts cs
      return (key :: keys, cs)
    | cs => return ([key], cs)

end Tapeworks.Toml
