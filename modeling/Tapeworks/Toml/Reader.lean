import Tapeworks.Toml.Scalar
import Tapeworks.Toml.Text

/-! Reading a TOML document. Its entries are the keys before the first header, in order, and then the tables that the
    headers make. -/

namespace Tapeworks.Toml

/-- How many parts a dotted key may have, and how deep arrays and inline tables may nest. -/
def depthLimit : Nat := 79

/-! ### Adding to tables -/

/-- Adds an entry below the tables that a dotted key names. These tables are made by dotted keys, too: none of them may
    have a header or braces of its own. -/
def addEntry (key : String) (v : Value) : (path : List String) → Entries → Option Entries
  | [], entries => if entries.any (·.1 = key) then none else some (entries ++ [(key, v)])
  | name :: path, entries =>
    match entries.lookup name with
    | none => do
      return entries ++ [(name, .table .dotted (← addEntry key v path []))]
    | some (.table origin inner) =>
      if origin = .header ∨ origin = .inline ∨ (path = [] ∧ origin ≠ .dotted) then none
      else do
        let inner ← addEntry key v path inner
        return entries.map fun (k, old) => if k = name then (k, .table origin inner) else (k, old)
    | some (.tables (last :: others)) =>
      if path = [] then none
      else do
        let last ← addEntry key v path last
        return entries.map fun (k, old) => if k = name then (k, .tables (last :: others)) else (k, old)
    | some _ => none

/-- An entry of a table: its dotted key and its value. -/
abbrev Line := List String × Value

def addLine (entries : Entries) (line : Line) : Option Entries :=
  match line.1.getLast? with
  | none => none
  | some key => addEntry key line.2 line.1.dropLast entries

def addLines (entries : Entries) (lines : List Line) : Option Entries :=
  lines.foldlM addLine entries

/-! ### Values -/

def skipLine (cs : List Char) : List Char :=
  cs.dropWhile fun c => c = '\t' || !isControl c

/-- The text after blanks, line ends and comments. Each of them costs one unit of `fuel`. -/
def skipSpace : (fuel : Nat) → List Char → List Char
  | 0, cs => cs
  | fuel + 1, cs =>
    match skipBlanks cs with
    | '#' :: cs => skipSpace fuel (skipLine cs)
    | cs =>
      match newLine? cs with
      | some cs => skipSpace fuel cs
      | none => cs

mutual

/-- The value at the front of a text and the rest of the text, with at most `depth` containers around each other. -/
def value? (depth : Nat) : (fuel : Nat) → List Char → Option (Value × List Char)
  | 0, _ => none
  | fuel + 1, '[' :: cs =>
    match depth with
    | 0 => none
    | depth + 1 => do
      let (items, cs) ← items? depth fuel cs
      return (.array items, cs)
  | fuel + 1, '{' :: cs =>
    match depth with
    | 0 => none
    | depth + 1 =>
      match skipBlanks cs with
      | '}' :: cs => some (.table .inline [], cs)
      | cs => do
        let (lines, cs) ← lines? depth fuel cs
        return (.table .inline (← addLines [] lines), cs)
  | _, cs =>
    match cs with
    | '"' :: _ => (string? cs).map fun (s, rest) => (.string s, rest)
    | '\x27' :: _ => (string? cs).map fun (s, rest) => (.string s, rest)
    | _ => readScalar? cs

/-- The items of an array up to its closing bracket, and the rest of the text. -/
def items? (depth : Nat) : (fuel : Nat) → List Char → Option (List Value × List Char)
  | 0, _ => none
  | fuel + 1, cs =>
    match skipSpace fuel cs with
    | ']' :: cs => some ([], cs)
    | cs => do
      let (v, cs) ← value? depth fuel cs
      match skipSpace fuel cs with
      | ',' :: cs =>
        let (vs, cs) ← items? depth fuel cs
        return (v :: vs, cs)
      | ']' :: cs => return ([v], cs)
      | _ => none

/-- The entries of an inline table up to its closing brace, and the rest of the text. -/
def lines? (depth : Nat) : (fuel : Nat) → List Char → Option (List Line × List Char)
  | 0, _ => none
  | fuel + 1, cs => do
    let (keys, cs) ← dottedKey? depthLimit cs
    match cs with
    | '=' :: cs =>
      let (v, cs) ← value? depth fuel (skipBlanks cs)
      match skipBlanks cs with
      | ',' :: cs =>
        let (lines, cs) ← lines? depth fuel cs
        return ((keys, v) :: lines, cs)
      | '}' :: cs => return ([(keys, v)], cs)
      | _ => none
    | _ => none

end

/-! ### Lines -/

/-- The text of the next line, after blanks and a comment. -/
def endLine? (cs : List Char) : Option (List Char) :=
  let cs := match skipBlanks cs with
    | '#' :: cs => skipLine cs
    | cs => cs
  if cs.isEmpty then some [] else newLine? cs

def keyValue? (fuel : Nat) (cs : List Char) : Option (Line × List Char) := do
  let (keys, cs) ← dottedKey? depthLimit cs
  match cs with
  | '=' :: cs =>
    let (v, cs) ← value? depthLimit fuel (skipBlanks cs)
    return ((keys, v), ← endLine? cs)
  | _ => none

/-- Whether a header makes a table or the next element of an array of tables. -/
inductive HeaderKind
  | table
  | element
  deriving DecidableEq, Repr

/-- A header and the entries below it, last first. -/
structure Part where
  kind : HeaderKind
  path : List String
  lines : List Line

def header? : List Char → Option (Part × List Char)
  | '[' :: '[' :: cs => do
    match ← dottedKey? depthLimit cs with
    | (path, ']' :: ']' :: cs) => return (⟨.element, path, []⟩, ← endLine? cs)
    | _ => none
  | '[' :: cs => do
    match ← dottedKey? depthLimit cs with
    | (path, ']' :: cs) => return (⟨.table, path, []⟩, ← endLine? cs)
    | _ => none
  | _ => none

/-- The parts of a text, last first, after those already found, of which `current` may grow. A line costs one unit of
    `fuel`; a value may cost two for each of its characters, and there is at least one unit for each. -/
def partsFrom (done : List Part) (current : Part) : (fuel : Nat) → List Char → Option (List Part)
  | fuel + 1, cs =>
    match skipBlanks cs with
    | [] => some (current :: done)
    | '[' :: cs =>
      match header? ('[' :: cs) with
      | some (part, cs) => partsFrom (current :: done) part fuel cs
      | none => none
    | c :: cs =>
      if c = '#' ∨ (newLine? (c :: cs)).isSome then
        match endLine? (c :: cs) with
        | some cs => partsFrom done current fuel cs
        | none => none
      else
        match keyValue? (2 * fuel + 2) (c :: cs) with
        | some (line, cs) => partsFrom done { current with lines := line :: current.lines } fuel cs
        | none => none
  | 0, _ => none

/-! ### Documents -/

/-- Makes the table of a header, or gives a table that only paths of headers made a header of its own. -/
def makeTable (lines : List Line) : Option Value → Option Value
  | none => do
    return .table .header (← addLines [] lines)
  | some (.table .implied entries) => do
    return .table .header (← addLines entries lines)
  | some _ => none

def makeElement (lines : List Line) : Option Value → Option Value
  | none => do
    return .tables [← addLines [] lines]
  | some (.tables elements) => do
    return .tables ((← addLines [] lines) :: elements)
  | some _ => none

/-- Changes the value that the path of a header names. Of an array of tables it takes the last element. -/
def alterAt (f : Option Value → Option Value) : (path : List String) → Entries → Option Entries
  | [], _ => none
  | [key], entries => do
    let v ← f (entries.lookup key)
    return entries.filter (·.1 ≠ key) ++ [(key, v)]
  | name :: path, entries =>
    match entries.lookup name with
    | none => do
      return entries ++ [(name, .table .implied (← alterAt f path []))]
    | some (.table origin inner) =>
      if origin = .inline then none
      else do
        let inner ← alterAt f path inner
        return entries.map fun (k, old) => if k = name then (k, .table origin inner) else (k, old)
    | some (.tables (last :: others)) => do
      let last ← alterAt f path last
      return entries.map fun (k, old) => if k = name then (k, .tables (last :: others)) else (k, old)
    | some _ => none

def addPart (entries : Entries) (part : Part) : Option Entries :=
  match part.kind with
  | .table => alterAt (makeTable part.lines.reverse) part.path entries
  | .element => alterAt (makeElement part.lines.reverse) part.path entries

/-- The byte order mark that may start a document. -/
def dropMark : List Char → List Char
  | '\uFEFF' :: cs => cs
  | cs => cs

/-- The entries of a document. -/
def read? (text : String) : Option Entries := do
  let cs := dropMark text.toList
  match (← partsFrom [] ⟨.table, [], []⟩ (cs.length + 1) cs).reverse with
  | [] => none
  | first :: rest => rest.foldlM addPart (← addLines [] first.lines.reverse)

end Tapeworks.Toml
