import Tapeworks.Json.Value

/-! The texts of a JSON value: the compact one without white space, and the pretty one with a line for each item and
    member, indented by two spaces for each container around it. -/

namespace Tapeworks.Json

/-! ### Scalars -/

def hexChar (n : Nat) : Char :=
  Nat.digitChar n

/-- Quotes, backslashes and control characters are written as escapes, all else as it is. -/
def escape (c : Char) : List Char :=
  match c with
  | '"' => ['\\', '"']
  | '\\' => ['\\', '\\']
  | '\x08' => ['\\', 'b']
  | '\x0c' => ['\\', 'f']
  | '\n' => ['\\', 'n']
  | '\r' => ['\\', 'r']
  | '\t' => ['\\', 't']
  | c => if c.toNat < 0x20 then ['\\', 'u', '0', '0', hexChar (c.toNat / 16), hexChar (c.toNat % 16)] else [c]

/-- A literal for text; what is not Unicode text is shown as the replacement character. -/
def quote (s : Text) : List Char :=
  '"' :: ((s.getD "\uFFFD").toList.flatMap escape ++ ['"'])

namespace Value

/-! ### Compact text -/

mutual

def compact : Value → List Char
  | null => ['n', 'u', 'l', 'l']
  | bool true => ['t', 'r', 'u', 'e']
  | bool false => ['f', 'a', 'l', 's', 'e']
  | number n => n.text
  | string s => quote s
  | array items => '[' :: compactItems items
  | object members => '{' :: compactMembers members

/-- The items and the closing bracket. -/
def compactItems : List Value → List Char
  | [] => [']']
  | [v] => compact v ++ [']']
  | v :: vs => compact v ++ ',' :: compactItems vs

/-- The members and the closing brace. -/
def compactMembers : List (Text × Value) → List Char
  | [] => ['}']
  | [(name, v)] => quote name ++ ':' :: (compact v ++ ['}'])
  | (name, v) :: rest => quote name ++ ':' :: (compact v ++ ',' :: compactMembers rest)

end

/-! ### Pretty text -/

def newLine (level : Nat) : List Char :=
  '\n' :: List.replicate (2 * level) ' '

mutual

/-- The text of a value inside `level` containers. -/
def pretty (level : Nat) : Value → List Char
  | null => ['n', 'u', 'l', 'l']
  | bool true => ['t', 'r', 'u', 'e']
  | bool false => ['f', 'a', 'l', 's', 'e']
  | number n => n.text
  | string s => quote s
  | array [] => ['[', ']']
  | array items => '[' :: prettyItems level items
  | object [] => ['{', '}']
  | object members => '{' :: prettyMembers level members

/-- The items, each on its own line, and the closing bracket. -/
def prettyItems (level : Nat) : List Value → List Char
  | [] => newLine level ++ [']']
  | [v] => newLine (level + 1) ++ pretty (level + 1) v ++ newLine level ++ [']']
  | v :: vs => newLine (level + 1) ++ pretty (level + 1) v ++ ',' :: prettyItems level vs

/-- The members, each on its own line, and the closing brace. -/
def prettyMembers (level : Nat) : List (Text × Value) → List Char
  | [] => newLine level ++ ['}']
  | [(name, v)] =>
    newLine (level + 1) ++ quote name ++ ':' :: ' ' :: (pretty (level + 1) v ++ newLine level ++ ['}'])
  | (name, v) :: rest =>
    newLine (level + 1) ++ quote name ++ ':' :: ' ' :: (pretty (level + 1) v ++ ',' :: prettyMembers level rest)

end

def compactText (v : Value) : String :=
  String.ofList v.compact

def prettyText (v : Value) : String :=
  String.ofList (v.pretty 0)

end Value

end Tapeworks.Json
