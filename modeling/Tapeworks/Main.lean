import Tapeworks.CommandLine.Perform

/-! The program. It looks up the files of a command, performs the command and shows what that leaves. -/

namespace Tapeworks.CommandLine

/-- What is at a path. The names in a folder do not matter to any command. -/
def lookUp (path : String) : IO (Except FileError Found) := do
  try
    return .ok (.file (← IO.FS.readBinFile path))
  catch
    | .inappropriateType _ 21 _ => return .ok (.folder [])
    | .inappropriateType _ _ _ => return .error .notFolder
    | .invalidArgument _ _ _ => return .error .nameTooLong
    | _ => return .error .notFound

/-- A view of the files at the given paths. -/
def viewOf (paths : List String) : IO Files := do
  let found ← paths.mapM fun path => return (path, ← lookUp path)
  return fun path => (found.lookup path).getD (.error .notFound)

partial def readAll (stream : IO.FS.Stream) (bytes : ByteArray) : IO ByteArray := do
  let chunk ← stream.read 65536
  if chunk.isEmpty then return bytes else readAll stream (bytes ++ chunk)

def display (report : Report) : IO UInt32 := do
  IO.print report.stdout
  report.stderr.forM fun text => IO.eprintln text
  return report.exitCode.toUInt32

/-- Shows each step when it is done, with the time of the session between steps. -/
partial def follow (session : Session) : IO UInt32 := do
  match session.turn with
  | .ended report => display report
  | .shown line next =>
    IO.print line
    (← IO.getStdout).flush
    IO.sleep session.delay.toMillis.toUInt32
    follow next

def usage : String :=
  "usage: [-d] decode [ENCODING] [--start STATE] | encode MACHINE | compile MACHINE | check MACHINE | list |\n" ++
  "       run MACHINE [-t TAPE] [--head N] [--start STATE] [--speed PERCENT] [--config FILE] [--no-delay]\n"

def program (args : List String) : IO UInt32 := do
  match parse args with
  | .error .misuse =>
    IO.eprint usage
    return 2
  | .error _ =>
    IO.print usage
    return 0
  | .ok command =>
    let files ← viewOf command.paths
    let stdin ← if command.readsInput then readAll (← IO.getStdin) ByteArray.empty else pure ByteArray.empty
    match perform files stdin command with
    | .report report => display report
    | .session session =>
      IO.print session.opening
      follow session

end Tapeworks.CommandLine

def main (args : List String) : IO UInt32 :=
  Tapeworks.CommandLine.program args
