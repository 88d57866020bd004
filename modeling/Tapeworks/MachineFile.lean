import Tapeworks.Code.Decode
import Tapeworks.Diagram.Edit
import Tapeworks.Files
import Tapeworks.Record

/-! Machine files: JSON records in files named `.json`, and codes in files named `.ab`. A machine from a code starts in
    the first state of the code, and a machine without an id is named after its file. -/

namespace Tapeworks

namespace MachineFile

inductive Format
  | json
  | code
  deriving DecidableEq, Repr

def Format.ofPath? (path : String) : Option Format :=
  match Path.extension? path with
  | some "json" => some json
  | some "ab" => some code
  | _ => none

end MachineFile

/-- Why a machine cannot be had. -/
inductive LoadError
  | decode (error : DecodeError)
  | edit (error : EditError)
  | invalidRecord
  | unsupportedFile (path : String)
  | unreadableFile (path : String) (error : FileError)
  | missingFolder (path : String)
  | unreadableFolder (path : String) (error : FileError)
  | inFolder (path : String) (error : LoadError)
  | notFound (name : String)
  deriving DecidableEq, Repr

namespace LoadError

def recordMessage : String := "not a machine record"

def message : LoadError → String
  | decode e => "Decode error: " ++ e.message
  | edit e => "Diagram error: " ++ e.message
  | invalidRecord => "Invalid machine file: " ++ recordMessage
  | unsupportedFile path => "File error: Unsupported machine file " ++ path ++ ": expected .json or .ab"
  | unreadableFile path e => "File error: Failed to read file " ++ path ++ ": " ++ e.message
  | missingFolder path => "File error: Directory " ++ path ++ " does not exist"
  | unreadableFolder path e => "File error: Failed to read directory " ++ path ++ ": " ++ e.message
  | inFolder path e => "File error: Failed to load machine from " ++ path ++ ": " ++ e.message
  | notFound name => "Machine not found: " ++ name

/-- The messages of the error and of what caused it. -/
def chain (e : LoadError) : List String :=
  e.message :: match e with
    | decode cause => [cause.message]
    | edit cause => [cause.message]
    | invalidRecord => [recordMessage]
    | _ => []

end LoadError

namespace MachineFile

/-- The machine in a text. The id is used when the text has none. -/
def ofText (format : Format) (text id : String) : Except LoadError MachineRecord :=
  match format with
  | .json =>
    match MachineRecord.read? text with
    | none => .error .invalidRecord
    | some r => .ok (if r.id = "" then { r with id } else r)
  | .code =>
    match Tapeworks.decode text with
    | .error e => .error (.decode e)
    | .ok d =>
      match d.states with
      | [] => .ok ⟨id, d⟩
      | first :: _ =>
        match d.makeSoleStart first.id with
        | .error e => .error (.edit e)
        | .ok started => .ok ⟨id, started⟩

def load (files : Files) (path : String) : Except LoadError MachineRecord :=
  match Format.ofPath? path with
  | none => .error (.unsupportedFile path)
  | some format =>
    match files.text path with
    | .error e => .error (.unreadableFile path e)
    | .ok text => ofText format text ((Path.stem? path).getD "")

/-- Whether a path in a folder is that of a machine file. -/
def isMachineFile (files : Files) (path : String) : Bool :=
  (Format.ofPath? path).isSome && !files.isFolder path

def loadFrom (files : Files) (path : String) : Except LoadError (String × MachineRecord) :=
  match load files path with
  | .error e => .error (.inFolder path e)
  | .ok r => .ok (path, r)

/-- Every machine file of a folder, by ascending name. A file that cannot be loaded does not keep others from it. -/
def loadFolder (files : Files) (folder : String) : List (Except LoadError (String × MachineRecord)) :=
  if !files.exists? folder then [.error (.missingFolder folder)]
  else
    match files.names folder with
    | .error e => [.error (.unreadableFolder folder e)]
    | .ok names =>
      let paths := (names.mergeSort (· ≤ ·)).map (Path.entry folder)
      (paths.filter (isMachineFile files)).map (loadFrom files)

end MachineFile

end Tapeworks
