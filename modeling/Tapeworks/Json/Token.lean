import Tapeworks.Json.Value

/-! The tokens of a JSON text. Space, tab, line feed and carriage return separate tokens and count for nothing else. -/

namespace Tapeworks.Json

def isSpace (c : Char) : Bool :=
  c = ' ' || c = '\t' || c = '\n' || c = '\r'

/-! ### String literals -/

/-- A part of a string literal: a character, or a code unit of a `\u` escape. -/
inductive Part
  | char (c : Char)
  | unit (u : Nat)
  deriving DecidableEq, Repr

/-- The code unit with the given hexadecimal digits. -/
def hexUnit? (a b c d : Char) : Option Nat := do
  let digits ← [a, b, c, d].mapM Text.hexDigit?
  return digits.foldl (fun n digit => 16 * n + digit) 0

/-- The character that a backslash and the given character stand for. -/
def escaped? (c : Char) : Option Char :=
  match c with
  | '"' => some '"'
  | '\\' => some '\\'
  | '/' => some '/'
  | 'b' => some '\x08'
  | 'f' => some '\x0c'
  | 'n' => some '\n'
  | 'r' => some '\r'
  | 't' => some '\t'
  | _ => none

/-- The parts of a string literal up to its closing quote, after those already found, and the rest of the text. -/
def stringParts (found : List Part) : List Char → Option (List Part × List Char)
  | [] => none
  | '"' :: cs => some (found.reverse, cs)
  | '\\' :: 'u' :: a :: b :: c :: d :: cs =>
    match hexUnit? a b c d with
    | some u => stringParts (.unit u :: found) cs
    | none => none
  | '\\' :: e :: cs =>
    match escaped? e with
    | some c => stringParts (.char c :: found) cs
    | none => none
  | c :: cs => if c.toNat < 0x20 ∨ c = '\\' then none else stringParts (.char c :: found) cs

def isHighSurrogate (u : Nat) : Bool :=
  0xD800 ≤ u && u < 0xDC00

def isLowSurrogate (u : Nat) : Bool :=
  0xDC00 ≤ u && u < 0xE000

/-- The text of the parts after that of the characters already found. Two escapes in a row form a surrogate pair. -/
def partsText (found : List Char) : List Part → Text
  | [] => some (String.ofList found.reverse)
  | .char c :: rest => partsText (c :: found) rest
  | .unit u :: rest =>
    if isLowSurrogate u then none
    else if isHighSurrogate u then
      match rest with
      | .unit v :: rest =>
        if isLowSurrogate v then partsText (Char.ofNat (0x10000 + (u - 0xD800) * 0x400 + (v - 0xDC00)) :: found) rest
        else none
      | _ => none
    else partsText (Char.ofNat u :: found) rest

/-! ### Tokens -/

/-- The token at the front of a text and the rest of the text. -/
def token? : List Char → Option (Token × List Char)
  | '[' :: cs => some (.openArray, cs)
  | ']' :: cs => some (.closeArray, cs)
  | '{' :: cs => some (.openObject, cs)
  | '}' :: cs => some (.closeObject, cs)
  | ',' :: cs => some (.comma, cs)
  | ':' :: cs => some (.colon, cs)
  | 'n' :: 'u' :: 'l' :: 'l' :: cs => some (.null, cs)
  | 't' :: 'r' :: 'u' :: 'e' :: cs => some (.bool true, cs)
  | 'f' :: 'a' :: 'l' :: 's' :: 'e' :: cs => some (.bool false, cs)
  | '"' :: cs => (stringParts [] cs).map fun (parts, rest) => (.string (partsText [] parts), rest)
  | cs => (Number.read? cs).map fun (n, rest) => (.number n, rest)

theorem stringParts_shorter {found parts : List Part} {cs rest : List Char}
    (h : stringParts found cs = some (parts, rest)) : rest.length < cs.length := by
  fun_induction stringParts found cs <;> simp_all <;> omega

theorem token?_shorter {cs rest : List Char} {t : Token} (h : token? cs = some (t, rest)) :
    rest.length < cs.length := by
  unfold token? at h
  split at h
  case h_10 =>
    obtain ⟨⟨parts, r⟩, hp, hr⟩ := Option.map_eq_some_iff.mp h
    obtain ⟨-, rfl⟩ := Prod.mk.inj hr
    exact Nat.lt_succ_of_lt (stringParts_shorter hp)
  case h_11 =>
    obtain ⟨⟨n, r⟩, hn, hr⟩ := Option.map_eq_some_iff.mp h
    obtain ⟨-, rfl⟩ := Prod.mk.inj hr
    exact Number.read?_shorter hn
  all_goals
    obtain ⟨-, rfl⟩ := Prod.mk.inj (Option.some.inj h)
    simp only [List.length_cons]
    omega

/-- The tokens of a text after those already found. -/
def tokensFrom (found : List Token) : List Char → Option (List Token)
  | [] => some found.reverse
  | c :: cs =>
    if isSpace c then tokensFrom found cs
    else
      match h : token? (c :: cs) with
      | some (t, rest) =>
        have := token?_shorter h
        tokensFrom (t :: found) rest
      | none => none
termination_by cs => cs.length
decreasing_by
  · exact Nat.lt_succ_self _
  · exact this

def tokens (cs : List Char) : Option (List Token) :=
  tokensFrom [] cs

end Tapeworks.Json
