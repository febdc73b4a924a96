import Limn.Command.Run

/-! # The program

Standard streams and files around the commands. The files that a command may look at are known from
its command line, so they are read beforehand and the command itself runs on plain data. There are
no grammars in this program, and no server.
-/

namespace Limn.Program

open Limn.Command

/-- How the program is called. -/
def usage : String :=
  "usage: marksight [-h] [--version] [--config FILE] [-v] " ++
    "highlight|outline|features|dump|serve ...\n"

/-- All octets of a stream. -/
partial def readAll (stream : IO.FS.Stream) (got : Bytes) : IO Bytes := do
  let chunk ← stream.read 65536
  if chunk.isEmpty then return got else readAll stream (got ++ chunk.toList)

/-- The fault of a file that could not be read. -/
def entryOf : IO.Error → FileEntry
  | .inappropriateType _ code _ => if code == 21 then .folder else .missing .notDirectory
  | .invalidArgument _ code _ => if code == 36 then .missing .nameTooLong else .missing .notFound
  | _ => .missing .notFound

/-- What stands at a path. -/
def probe (path : Path) : IO (Path × FileEntry) := do
  try
    let content ← IO.FS.readBinFile path.text
    return (path, .file content.toList)
  catch e => return (path, entryOf e)

/-- The file that a task reads. -/
def fileOf : Task → List String
  | .highlight file .. => [file]
  | .outline file .. => [file]
  | .dump file .. => [file]
  | .features => []
  | .serve .. => []

/-- The paths that an invocation may look at. -/
def pathsOf (i : Invocation) : List Path :=
  (i.config.toList ++ [Settings.fileName] ++ fileOf i.task).map Path.ofText

/-- Run a command line on the real streams and files. -/
def run (args : List String) : IO UInt32 := do
  let out ← IO.getStdout
  let err ← IO.getStderr
  match readLine args with
  | .error stop =>
    (if stop == .shown then out else err).putStr usage
    return stop.code.toUInt32
  | .ok i =>
    let seen ← (pathsOf i).mapM probe
    let input ← if (fileOf i.task).contains "-" then readAll (← IO.getStdin) [] else pure []
    let o := Command.run
      { files := fun p => (seen.lookup p).getD (.missing .notFound)
        input
        serverFault := some "no server in this program"
        freshToken := fun _ => "" } i
    out.putStr o.output
    err.putStr o.report
    match o.ending with
    | .exit code => return code.toUInt32
    | .failed e =>
      err.putStr (e.message ++ "\n")
      return 1

end Limn.Program

/-- Run the command line. -/
def main (args : List String) : IO UInt32 :=
  Limn.Program.run args
