import Tapeworks.Code.Encode
import Tapeworks.Config
import Tapeworks.Library

/-! What a command leaves behind: its output, its exit code, and the report of an error with everything that caused
    it. -/

namespace Tapeworks.CommandLine

/-- An error and its causes, each the cause of the one before. -/
structure Failure where
  message : String
  causes : List String
  deriving DecidableEq, Repr

namespace Failure

/-- Puts a text in front of every line but the first. -/
def indentRest (indent text : String) : String :=
  String.intercalate ("\n" ++ indent) ((text.toList.splitOn '\n').map String.ofList)

def numbered (cause : String) (index : Nat) : String :=
  "\n    " ++ toString index ++ ": " ++ indentRest "       " cause

/-- A single cause is indented, several are numbered. -/
def causeText : List String → String
  | [] => ""
  | [cause] => "\n\nCaused by:\n    " ++ indentRest "    " cause
  | causes => "\n\nCaused by:" ++ String.join (causes.zipIdx.map fun (cause, index) => numbered cause index)

def text (f : Failure) : String :=
  "Error: " ++ f.message ++ causeText f.causes

def ofMessage (message : String) : Failure :=
  ⟨message, []⟩

/-- The failure to do something, and the error that it comes from. -/
def ofLoad (context : String) (e : LoadError) : Failure :=
  ⟨context, e.chain⟩

def ofConfig (e : ConfigError) : Failure :=
  ⟨e.message, match e with
    | .parse fault => [fault.message]
    | _ => []⟩

def ofDecode (e : DecodeError) : Failure :=
  ofMessage e.message

def ofEncode (e : EncodeError) : Failure :=
  ofMessage e.message

def ofEdit (e : EditError) : Failure :=
  ofMessage e.message

def ofRun (e : RunError) : Failure :=
  ofMessage e.message

end Failure

structure Report where
  stdout : String
  outcome : Except Failure Unit

namespace Report

def success (stdout : String) : Report :=
  ⟨stdout, .ok ()⟩

def failure (f : Failure) : Report :=
  ⟨"", .error f⟩

def exitCode (r : Report) : Nat :=
  match r.outcome with
  | .ok () => 0
  | .error _ => 1

/-- The text of the error, if there is one. -/
def stderr (r : Report) : Option String :=
  match r.outcome with
  | .ok () => none
  | .error f => some f.text

def ofExcept (result : Except Failure String) : Report :=
  match result with
  | .ok stdout => success stdout
  | .error f => failure f

end Report

end Tapeworks.CommandLine
