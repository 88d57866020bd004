import Tapeworks.Json.Fields
import Tapeworks.Pacing
import Tapeworks.Tape
import Tapeworks.Toml.Reader

/-! The configuration of runs, and its TOML document. Keys that a document leaves out keep their defaults. -/

namespace Tapeworks

structure Config where
  /-- Cells on a fresh tape. -/
  tapeLength : Nat := Tape.defaultLength
  baseIntervalMs : Nat := 500
  speed : Speed := Speed.full
  /-- The step limit of runs without a pace. -/
  maxSteps : Nat := 10000
  /-- Snapshots kept of a run, all if there is no limit. -/
  traceLimit : Option Nat := none
  deriving DecidableEq, Repr

/-- What is wrong with a document. -/
inductive ConfigFault
  | notToml
  | unsuitable (key : String)
  | speed (percent : Nat)
  deriving DecidableEq, Repr

inductive ConfigError
  | invalidSpeed (percent : Nat)
  | emptyTape
  | parse (fault : ConfigFault)
  | io (path message : String)
  deriving DecidableEq, Repr

def ConfigFault.message : ConfigFault → String
  | notToml => "not a TOML document"
  | unsuitable key => "unsuitable value for " ++ key
  | speed percent => Speed.rangeMessage percent

def ConfigError.message : ConfigError → String
  | invalidSpeed percent => Speed.rangeMessage percent
  | emptyTape => "tape length must be at least 1"
  | parse fault => "invalid configuration: " ++ fault.message
  | io path message => "failed to read " ++ path ++ ": " ++ message

/-- Speeds are given as a byte, which may still be out of range. -/
def Speed.ofByte (percent : Nat) : Except ConfigError Speed :=
  match Speed.ofPercent? percent with
  | some s => .ok s
  | none => .error (.invalidSpeed percent)

namespace Config

def default : Config := {}

instance : Inhabited Config := ⟨default⟩

def pacing (c : Config) : Pacing :=
  ⟨Duration.ofMillis c.baseIntervalMs, c.speed⟩

/-- Keeps whole milliseconds, at most the largest word of them. -/
def withBaseInterval (c : Config) (interval : Duration) : Config :=
  { c with baseIntervalMs := min interval.toMillis (Text.wordLimit - 1) }

def validate (c : Config) : Except ConfigError Config :=
  if c.tapeLength = 0 then .error .emptyTape else .ok c

/-! ### Documents -/

/-- A value that stands for a natural number below `limit`. -/
def natural (key : String) (limit : Nat) : Toml.Value → Except ConfigFault Nat
  | .integer (.ofNat n) => if n < limit then .ok n else .error (.unsuitable key)
  | _ => .error (.unsuitable key)

def byteLimit : Nat := 256

/-- Takes over one entry of a document. Unknown keys are passed over. -/
def setEntry (c : Config) (entry : String × Toml.Value) : Except ConfigFault Config :=
  let (key, v) := entry
  if key = "tape_length" then do
    return { c with tapeLength := ← natural key Text.wordLimit v }
  else if key = "base_interval_ms" then do
    return { c with baseIntervalMs := ← natural key Text.wordLimit v }
  else if key = "speed" then do
    let percent ← natural key byteLimit v
    match Speed.ofPercent? percent with
    | some speed => return { c with speed }
    | none => .error (.speed percent)
  else if key = "max_steps" then do
    return { c with maxSteps := ← natural key Text.wordLimit v }
  else if key = "trace_limit" then do
    return { c with traceLimit := some (← natural key Text.wordLimit v) }
  else .ok c

def ofEntries (entries : Toml.Entries) : Except ConfigFault Config :=
  entries.foldlM setEntry default

def ofToml (text : String) : Except ConfigError Config :=
  match Toml.read? text with
  | none => .error (.parse .notToml)
  | some entries =>
    match ofEntries entries with
    | .error fault => .error (.parse fault)
    | .ok c => c.validate

/-! ### JSON -/

def speed? (v : Json.Value) : Option Speed := do
  Speed.ofPercent? (← v.word?)

def fieldNames : List String :=
  ["tape_length", "base_interval_ms", "speed", "max_steps", "trace_limit"]

def ofJson? (v : Json.Value) : Option Config := do
  match ← v.fields? fieldNames with
  | [tapeLength, baseIntervalMs, speed, maxSteps, traceLimit] =>
    return {
      tapeLength := ← Json.Value.withDefault? default.tapeLength Json.Value.word? tapeLength
      baseIntervalMs := ← Json.Value.withDefault? default.baseIntervalMs Json.Value.word? baseIntervalMs
      speed := ← Json.Value.withDefault? default.speed speed? speed
      maxSteps := ← Json.Value.withDefault? default.maxSteps Json.Value.word? maxSteps
      traceLimit := ← Json.Value.optional? Json.Value.word? traceLimit }
  | _ => none

def toJson (c : Config) : Json.Value :=
  .record [("tape_length", .word c.tapeLength), ("base_interval_ms", .word c.baseIntervalMs),
    ("speed", .word c.speed.percent), ("max_steps", .word c.maxSteps),
    ("trace_limit", c.traceLimit.elim .null .word)]

end Config

end Tapeworks
