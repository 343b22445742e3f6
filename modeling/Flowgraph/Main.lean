import Flowgraph.Command.Script

/-! The program: reads its command line, runs the script of it and ends with its code. -/

namespace Flowgraph

/-- Why a file could not be read or written. -/
def fileReason (e : IO.Error) : String :=
  match e with
  | .noFileOrDirectory .. | .noSuchThing .. => Command.FileFault.missing.message
  | .permissionDenied .. => "Permission denied (os error 13)"
  | .alreadyExists .. => "File exists (os error 17)"
  | .inappropriateType _ code _ =>
    if code = 20 then Command.FileFault.notDirectory.message
    else Command.FileFault.isDirectory.message
  | .invalidArgument _ code _ =>
    if code = 36 then Command.FileFault.nameTooLong.message else e.toString
  | e => e.toString

/-- No database can be reached from here. -/
def connectionRefused : DatabaseFault := .broken "Connection refused (os error 111)"

def Script.perform : Script → IO UInt32
  | done ending => do
    IO.print ending.stdout
    IO.eprint ending.stderr
    return ending.code
  | read file next => do
    let text ← (IO.FS.readFile file).toBaseIO
    (next (text.mapError fileReason)).perform
  | write file text next => do
    match ← (IO.FS.writeFile file text).toBaseIO with
    | .ok _ => (next none).perform
    | .error e => (next (some (fileReason e))).perform
  | withDatabase config _ failed =>
    match config.open (.error connectionRefused) with
    | .ok _ => return 0
    | .error e => (failed e).perform

end Flowgraph

def main (arguments : List String) : IO UInt32 := do
  let mut environment := []
  for name in Flowgraph.Command.Verb.sources do
    if let some value ← IO.getEnv name then
      environment := environment ++ [(name, value)]
  (Flowgraph.Command.ofArguments environment arguments).perform
