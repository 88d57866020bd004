import Tapeworks.Text.Numeral

/-! The arguments of the command line: a command, its options and its operand. Options may stand on either side of the
    operand; two dashes end them. An option is given at most once, and its value may follow it or be attached to it. -/

namespace Tapeworks.CommandLine

structure RunOptions where
  tape : String := ""
  head : Nat := 0
  start : Option String := none
  speed : Option Nat := none
  config : Option String := none
  noDelay : Bool := false
  deriving DecidableEq, Repr

inductive Command
  | decode (encoding start : Option String)
  | encode (machine : String)
  | compile (machine : String)
  | check (machine : String)
  | run (machine : String) (options : RunOptions)
  | list
  deriving DecidableEq, Repr

namespace Command

/-- The paths at which a command looks for files. -/
def paths : Command → List String
  | decode _ _ => []
  | encode machine => [machine]
  | compile machine => [machine]
  | check machine => [machine]
  | run machine options => machine :: options.config.toList
  | list => []

/-- Whether a command reads the standard input. -/
def readsInput : Command → Bool
  | decode none _ => true
  | _ => false

end Command

/-- Why the arguments give no command. -/
inductive Stop
  | help
  | version
  | misuse
  deriving DecidableEq, Repr

/-! ### Options -/

inductive Flag
  | debug
  | help
  | version
  | start
  | tape
  | head
  | speed
  | config
  | noDelay
  deriving DecidableEq, Repr

namespace Flag

def long : Flag → String
  | debug => "debug"
  | help => "help"
  | version => "version"
  | start => "start"
  | tape => "tape"
  | head => "head"
  | speed => "speed"
  | config => "config"
  | noDelay => "no-delay"

def short? : Flag → Option Char
  | debug => some 'd'
  | help => some 'h'
  | version => some 'V'
  | tape => some 't'
  | _ => none

def takesValue : Flag → Bool
  | start => true
  | tape => true
  | head => true
  | speed => true
  | config => true
  | _ => false

end Flag

/-- The number in an argument that is at most 255. A minus sign is only possible before a zero. -/
def byte? (s : String) : Option Nat := do
  let (minus, digits) := match s.toList with
    | '-' :: cs => (true, cs)
    | cs => (false, Text.dropPlus cs)
  let n ← Text.digitsValue? digits
  if n ≤ 255 ∧ (minus → n = 0) then some n else none

/-- Whether an option can have a value. -/
def Flag.accepts (flag : Flag) (value : String) : Bool :=
  match flag with
  | .head => (Text.word? value).isSome
  | .speed => (byte? value).isSome
  | .config => value ≠ ""
  | _ => true

/-! ### Grammars -/

/-- The options of a command and how many operands it must and may have. -/
structure Grammar where
  flags : List Flag
  required : Nat
  allowed : Nat

/-- What the arguments of a command hold. An option without value has an empty one. -/
structure Parsed where
  flags : List (Flag × String) := []
  operands : List String := []

namespace Parsed

def value? (p : Parsed) (flag : Flag) : Option String :=
  p.flags.lookup flag

def addFlag (p : Parsed) (flag : Flag) (value : String) : Except Stop Parsed :=
  if flag = .help then .error .help
  else if flag = .version then .error .version
  else if (p.value? flag).isSome || !flag.accepts value then .error .misuse
  else .ok { p with flags := (flag, value) :: p.flags }

def addOperand (g : Grammar) (p : Parsed) (operand : String) : Except Stop Parsed :=
  if p.operands.length < g.allowed then .ok { p with operands := p.operands ++ [operand] } else .error .misuse

end Parsed

/-- A part of an option argument: an option with its value, or one whose value is the next argument. -/
inductive Piece
  | whole (flag : Flag) (value : String)
  | awaiting (flag : Flag)

/-- The part that a long option is, given the text after its dashes. -/
def longPiece? (g : Grammar) (body : List Char) : Option Piece := do
  let name := String.ofList (body.takeWhile (· ≠ '='))
  let flag ← g.flags.find? (·.long = name)
  match body.dropWhile (· ≠ '='), flag.takesValue with
  | [], true => some (.awaiting flag)
  | [], false => some (.whole flag "")
  | _ :: value, true => some (.whole flag (String.ofList value))
  | _ :: _, false => none

def dropEquals : List Char → List Char
  | '=' :: cs => cs
  | cs => cs

/-- The parts that short options after one dash are. What follows one with a value is that value. -/
def shortPieces? (g : Grammar) : List Char → Option (List Piece)
  | [] => some []
  | c :: cs => do
    let flag ← g.flags.find? (·.short? = some c)
    if flag.takesValue then
      if cs.isEmpty then return [.awaiting flag] else return [.whole flag (String.ofList (dropEquals cs))]
    else return .whole flag "" :: (← shortPieces? g cs)

def isOption (arg : String) : Bool :=
  match arg.toList with
  | '-' :: _ :: _ => true
  | _ => false

def pieces? (g : Grammar) (arg : String) : Option (List Piece) :=
  match arg.toList with
  | '-' :: '-' :: body => (longPiece? g body).map ([·])
  | '-' :: cs => shortPieces? g cs
  | _ => none

/-- Adds the parts of an option argument, and gives the option that awaits its value, if there is one. -/
def addPieces (p : Parsed) : List Piece → Except Stop (Parsed × Option Flag)
  | [] => .ok (p, none)
  | [.awaiting flag] => .ok (p, some flag)
  | .awaiting _ :: _ => .error .misuse
  | .whole flag value :: rest => do
    addPieces (← p.addFlag flag value) rest

/-- Takes over arguments one after the other. -/
def parseFrom (g : Grammar) (p : Parsed) : List String → Except Stop Parsed
  | [] => .ok p
  | "--" :: rest => rest.foldlM (Parsed.addOperand g) p
  | arg :: rest =>
    if isOption arg then
      match pieces? g arg with
      | none => .error .misuse
      | some pieces =>
        match addPieces p pieces with
        | .error stop => .error stop
        | .ok (p, none) => parseFrom g p rest
        | .ok (p, some flag) =>
          match rest with
          | [] => .error .misuse
          | value :: rest =>
            if isOption value then .error .misuse
            else
              match p.addFlag flag value with
              | .error stop => .error stop
              | .ok p => parseFrom g p rest
    else
      match p.addOperand g arg with
      | .error stop => .error stop
      | .ok p => parseFrom g p rest

def parseWith (g : Grammar) (args : List String) : Except Stop Parsed := do
  let p ← parseFrom g {} args
  if p.operands.length < g.required then .error .misuse else .ok p

/-! ### Commands -/

def runOptions (p : Parsed) : RunOptions where
  tape := (p.value? .tape).getD ""
  head := ((p.value? .head).bind Text.word?).getD 0
  start := p.value? .start
  speed := (p.value? .speed).bind byte?
  config := p.value? .config
  noDelay := (p.value? .noDelay).isSome

/-- The command that has its machine as its only operand. -/
def withMachine (flags : List Flag) (args : List String) (command : Parsed → String → Command) :
    Except Stop Command := do
  let p ← parseWith ⟨[.debug, .help] ++ flags, 1, 1⟩ args
  match p.operands with
  | [machine] => return command p machine
  | _ => .error .misuse

def names : List String :=
  ["decode", "encode", "compile", "check", "run", "list", "help"]

/-- Help can be asked for one command by its name. -/
def helpOn (args : List String) : Stop :=
  match args with
  | [] => .help
  | [name] => if name ∈ names then .help else .misuse
  | _ => .misuse

/-- The command that a name and the arguments after it give. -/
def commandNamed (name : String) (args : List String) : Except Stop Command :=
  match name with
  | "decode" => do
    let p ← parseWith ⟨[.debug, .help, .start], 0, 1⟩ args
    return .decode p.operands.head? (p.value? .start)
  | "encode" => withMachine [] args fun _ machine => .encode machine
  | "compile" => withMachine [] args fun _ machine => .compile machine
  | "check" => withMachine [] args fun _ machine => .check machine
  | "run" =>
    withMachine [.start, .tape, .head, .speed, .config, .noDelay] args fun p machine => .run machine (runOptions p)
  | "list" => do
    let _ ← parseWith ⟨[.debug, .help], 0, 0⟩ args
    return .list
  | "help" => .error (helpOn args)
  | _ => .error .misuse

/-- The options before the name of the command. -/
def leading : Grammar := ⟨[.debug, .help, .version], 0, 0⟩

/-- Splits the arguments before the name of the command. -/
def parse (args : List String) : Except Stop Command := do
  let options := args.takeWhile isOption
  if options.contains "--" then .error .misuse
  else
    let _ ← parseFrom leading {} options
    match args.dropWhile isOption with
    | [] => .error .misuse
    | name :: rest => commandNamed name rest

end Tapeworks.CommandLine
