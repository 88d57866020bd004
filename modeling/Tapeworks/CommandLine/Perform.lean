import Tapeworks.Analysis
import Tapeworks.CommandLine.Arguments
import Tapeworks.CommandLine.Report
import Tapeworks.Run
import Tapeworks.Table.Export

/-! Performing commands. All of them are done at once but a paced run, which goes on step by step. -/

namespace Tapeworks.CommandLine

/-! ### Texts -/

def padLeft (width : Nat) (s : String) : String :=
  String.ofList (List.replicate (width - s.length) ' ') ++ s

def padRight (width : Nat) (s : String) : String :=
  s ++ String.ofList (List.replicate (width - s.length) ' ')

/-- The cells of a snapshot with the one under the head in brackets. -/
def bracketed (cells : List Char) (head : Nat) : List Char :=
  match cells.drop head with
  | [] => cells
  | c :: after => cells.take head ++ '[' :: c :: ']' :: after

def snapshotLine (s : Snapshot) : String :=
  padLeft 5 (toString s.step) ++ "  " ++ padLeft 4 s.state ++ "  " ++
    String.ofList (bracketed s.tape.toList s.head) ++ "\n"

def infoLine (i : Library.Info) : String :=
  padLeft 2 (toString i.index) ++ "  " ++ padRight 20 i.name ++ " " ++ toString i.stateCount ++ " states, " ++
    toString i.transitionCount ++ " transitions\n"

/-! ### Machines -/

/-- The machine file at a path, or the built-in machine with that name when nothing is there. -/
def resolve (files : Files) (arg : String) : Except Failure MachineRecord :=
  if files.exists? arg then
    (MachineFile.load files arg).mapError (.ofLoad ("failed to load machine file " ++ arg))
  else
    (Library.named arg).mapError (.ofLoad
      ("'" ++ arg ++ "' is neither a machine file nor a built-in machine (" ++
        String.intercalate ", " Library.names ++ ")"))

/-! ### Commands without a run -/

def decodeText (text : String) (start : Option String) : Except Failure String := do
  let d ← (decode text).mapError .ofDecode
  let d ← match start with
    | none => .ok d
    | some id => (d.makeSoleStart id).mapError .ofEdit
  return d.toJson.prettyText ++ "\n"

/-- The encoding comes from the standard input when the arguments do not give it. -/
def decodeCommand (stdin : ByteArray) (encoding start : Option String) : Except Failure String :=
  match encoding with
  | some text => decodeText text start
  | none =>
    match Files.decodeText stdin with
    | .error e => .error ⟨"failed to read encoding from stdin", [e.message]⟩
    | .ok text => decodeText text start

def encodeCommand (files : Files) (machine : String) : Except Failure String := do
  let m ← resolve files machine
  return (← (encode m.diagram).mapError .ofEncode) ++ "\n"

def compileCommand (files : Files) (machine : String) : Except Failure String := do
  let m ← resolve files machine
  return (Tapeworks.compile m.diagram).table.jsonText ++ "\n"

/-- The report on the dropped rules and the problems of a machine. -/
def checkReport (m : MachineRecord) : Report :=
  let compilation := Tapeworks.compile m.diagram
  let problems := compilation.table.problems
  let lines := compilation.warnings.toList.map (fun w => "warning: " ++ w.message ++ "\n") ++
    problems.map fun p => "error: " ++ p.message ++ "\n"
  if problems.isEmpty then
    .success (String.join lines ++ "machine '" ++ m.id ++ "' is valid: " ++ toString m.diagram.states.length ++
      " states, " ++ toString compilation.table.transitionCount ++ " transitions\n")
  else
    ⟨String.join lines,
      .error (.ofMessage ("machine '" ++ m.id ++ "' has " ++ toString problems.length ++ " problem(s)"))⟩

def checkCommand (files : Files) (machine : String) : Report :=
  match resolve files machine with
  | .error f => .failure f
  | .ok m => checkReport m

def listCommand : String :=
  String.join (Library.machines.zipIdx.map fun (m, index) => infoLine (Library.Info.ofMachine m index))

/-! ### Runs -/

/-- A paced run that has begun: the machine and the time after each step. -/
structure Session where
  machine : Machine
  delay : Duration

namespace Session

def opening (s : Session) : String :=
  snapshotLine s.machine.snapshot

end Session

def closing (m : Machine) (halt : Halt) : Report :=
  match halt with
  | .accepted => .success ("\nAccepted in state " ++ m.state.id ++ " after " ++ toString m.stepCount ++ " steps.\n")
  | .failed e => .failure (.ofMessage ("machine halted after " ++ toString m.stepCount ++ " steps: " ++ e.message))

def Report.after (output : String) (r : Report) : Report :=
  { r with stdout := output ++ r.stdout }

/-- The configuration in a file. -/
def loadConfig (files : Files) (path : String) : Except ConfigError Config :=
  match files.text path with
  | .error e => .error (.io path e.message)
  | .ok text => Config.ofToml text

def configFor (files : Files) (options : RunOptions) : Except Failure Config := do
  let config ← match options.config with
    | none => .ok Config.default
    | some path => (loadConfig files path).mapError .ofConfig
  match options.speed with
  | none => return config
  | some percent =>
    let speed ← (Speed.ofByte percent).mapError .ofConfig
    return { config with speed }

/-- The machine as it stands before its first step, and the configuration of its run. -/
def setUp (files : Files) (machine : String) (options : RunOptions) : Except Failure (Machine × Config) := do
  let config ← configFor files options
  let m ← resolve files machine
  let table := (Tapeworks.compile m.diagram).table
  let tape ← ((Tape.ofInput options.tape.toList config.tapeLength).setHead options.head).mapError .ofRun
  let machine ← match options.start with
    | none => (Machine.new table tape).mapError .ofRun
    | some id => (Machine.startingAt table tape id).mapError .ofRun
  return (machine.setTraceLimit config.traceLimit, config)

/-- The whole run without a pace. It shows the snapshots that the machine keeps. -/
def unpacedReport (m : Machine) (config : Config) : Report :=
  let (halt, done) := m.run config.maxSteps
  (closing done halt).after (snapshotLine m.snapshot ++ String.join (done.trace.map snapshotLine))

/-- What a paced run does next: it shows a line and goes on, or it ends. -/
inductive Turn
  | shown (line : String) (next : Session)
  | ended (report : Report)

def Session.turn (s : Session) : Turn :=
  match s.machine.step with
  | (.moved, next) => .shown (snapshotLine next.snapshot) { s with machine := next }
  | (.halted halt, next) => .ended (closing next halt)

/-- The whole paced run as one report, or none if it never ends. -/
def Session.report? (s : Session) : Option Report :=
  let run := s.machine.pacedToEnd
  run.halt.map fun halt =>
    (closing run.machine halt).after (s.opening ++ String.join (run.seen.map snapshotLine))

/-! ### All commands -/

/-- A command is done and leaves a report, or a paced run begins. -/
inductive Answer
  | report (report : Report)
  | session (session : Session)

def runCommand (files : Files) (machine : String) (options : RunOptions) : Answer :=
  match setUp files machine options with
  | .error f => .report (.failure f)
  | .ok (m, config) =>
    if options.noDelay then .report (unpacedReport m config)
    else .session ⟨m, config.pacing.delay?.getD Duration.zero⟩

def perform (files : Files) (stdin : ByteArray) : Command → Answer
  | .decode encoding start => .report (.ofExcept (decodeCommand stdin encoding start))
  | .encode machine => .report (.ofExcept (encodeCommand files machine))
  | .compile machine => .report (.ofExcept (compileCommand files machine))
  | .check machine => .report (checkCommand files machine)
  | .run machine options => runCommand files machine options
  | .list => .report (.success listCommand)

end Tapeworks.CommandLine
