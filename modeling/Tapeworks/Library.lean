import Tapeworks.Compile
import Tapeworks.MachineFile

/-! The built-in machines, which are loaded from machine files. -/

namespace Tapeworks.Library

/-! ### Machine files -/

structure File where
  name : String
  format : MachineFile.Format
  text : String

/-- Adds one to the binary number that follows the blank under the head. -/
def binaryIncrementText : String :=
  "\x7b
  \"id\": \"binary-increment\",
  \"states\": [
    \x7b \"id\": \"1\", \"isStart\": true, \"isFinal\": false, \"position\": \x7b \"x\": 0.0, \"y\": 0.0 \x7d \x7d,
    \x7b \"id\": \"2\", \"isStart\": false, \"isFinal\": false, \"position\": \x7b \"x\": 200.0, \"y\": 0.0 \x7d \x7d,
    \x7b \"id\": \"3\", \"isStart\": false, \"isFinal\": false, \"position\": \x7b \"x\": 400.0, \"y\": 0.0 \x7d \x7d,
    \x7b \"id\": \"4\", \"isStart\": false, \"isFinal\": true, \"position\": \x7b \"x\": 600.0, \"y\": 0.0 \x7d \x7d
  ],
  \"edges\": [
    \x7b \"id\": \"e1-2\", \"source\": \"1\", \"target\": \"2\", \"label\": \"_,>\" \x7d,
    \x7b \"id\": \"e2-2\", \"source\": \"2\", \"target\": \"2\", \"label\": \"0,>;1,>\" \x7d,
    \x7b \"id\": \"e2-3\", \"source\": \"2\", \"target\": \"3\", \"label\": \"_,<\" \x7d,
    \x7b \"id\": \"e3-3\", \"source\": \"3\", \"target\": \"3\", \"label\": \"1,0,<\" \x7d,
    \x7b \"id\": \"e3-4\", \"source\": \"3\", \"target\": \"4\", \"label\": \"0,1,<;_,1,>\" \x7d
  ]
\x7d
"

/-- Accepts an even number of `a`s before a blank. -/
def evenAText : String :=
  "\x7b
  \"id\": \"even-a\",
  \"states\": [
    \x7b \"id\": \"1\", \"isStart\": true, \"isFinal\": false, \"position\": \x7b \"x\": 0.0, \"y\": 0.0 \x7d \x7d,
    \x7b \"id\": \"2\", \"isStart\": false, \"isFinal\": false, \"position\": \x7b \"x\": 200.0, \"y\": 0.0 \x7d \x7d,
    \x7b \"id\": \"3\", \"isStart\": false, \"isFinal\": true, \"position\": \x7b \"x\": 0.0, \"y\": 200.0 \x7d \x7d
  ],
  \"edges\": [
    \x7b \"id\": \"e1-2\", \"source\": \"1\", \"target\": \"2\", \"label\": \"a,>\" \x7d,
    \x7b \"id\": \"e2-1\", \"source\": \"2\", \"target\": \"1\", \"label\": \"a,>\" \x7d,
    \x7b \"id\": \"e1-3\", \"source\": \"1\", \"target\": \"3\", \"label\": \"_,_,>\" \x7d
  ]
\x7d
"

/-- A machine given by its code: accepts an `a` or a `b` and then a `b` before a blank. -/
def encodedExampleText : String :=
  "abaaabaaaababaaabababbaaabaaaabababbaaaabaabbabab\n"

def files : List File :=
  [⟨"binary-increment", .json, binaryIncrementText⟩, ⟨"even-a", .json, evenAText⟩,
    ⟨"encoded-example", .code, encodedExampleText⟩]

/-- The machines in the files. A file that cannot be loaded has none. -/
def machines : List MachineRecord :=
  files.filterMap fun file => (MachineFile.ofText file.format file.text file.name).toOption

/-! ### Access -/

def names : List String :=
  machines.map (·.id)

/-- What was found, or an error that tells what was looked for. -/
def orNotFound (found : Option MachineRecord) (what : String) : Except LoadError MachineRecord :=
  match found with
  | some m => .ok m
  | none => .error (.notFound what)

def atIndex (index : Nat) : Except LoadError MachineRecord :=
  orNotFound machines[index]? ("machine index " ++ toString index)

def named (name : String) : Except LoadError MachineRecord :=
  orNotFound (machines.find? (·.id = name)) name

structure Info where
  index : Nat
  name : String
  stateCount : Nat
  transitionCount : Nat
  deriving DecidableEq, Repr

def Info.ofMachine (m : MachineRecord) (index : Nat) : Info where
  index := index
  name := m.id
  stateCount := m.diagram.states.length
  transitionCount := (compile m.diagram).table.transitionCount

def info (index : Nat) : Except LoadError Info := do
  return Info.ofMachine (← atIndex index) index

/-! ### Search -/

/-- Lower case as far as it matters to names in ASCII: besides the capital letters, only the Kelvin sign has a lower
    case in ASCII. -/
def lower (c : Char) : Char :=
  if c = '\u212A' then 'k' else c.toLower

def contains (part : List Char) : List Char → Bool
  | [] => part.isEmpty
  | c :: cs => part.isPrefixOf (c :: cs) || contains part cs

/-- The indices of the machines whose names contain the query, in any case. -/
def search (query : String) : List Nat :=
  let part := query.toList.map lower
  (machines.zipIdx.filter fun (m, _) => contains part (m.id.toList.map lower)).map (·.2)

end Tapeworks.Library
