import CallScript.CommandLine

/-!
# The program

Reads files and standard input, and prints what the library answers.
-/

open CallScript

/-- The file error that an error of the system is. -/
def fileErrorOf : IO.Error → FileError
  | .noFileOrDirectory .. => .missing
  | .inappropriateType _ 20 _ => .notDirectory
  | .inappropriateType _ 21 _ => .directory
  | e => .other (toString e)

/-- Reads a file. -/
def readSource (file : String) : IO (Except FileError String) := do
  try
    return .ok (← IO.FS.readFile file)
  catch e => return .error (fileErrorOf e)

/-- Reads the files that an invocation names. -/
def readSources (invocation : Invocation) : IO (List (String × Except FileError String)) := do
  let source := match invocation.action with
    | .run file => [file]
    | .parse file _ => [file]
    | .tokens file => [file]
    | _ => []
  (invocation.config.toList ++ source).mapM fun file => return (file, ← readSource file)

/-- Prints a report and gives its exit code. -/
def printReport (report : Report) : IO UInt32 := do
  (← IO.getStdout).putStr report.stdout
  (← IO.getStderr).putStr report.stderr
  return report.exitCode.toUInt32

/-- Answers the lines of standard input as they come. -/
partial def converse (session : Session) : IO Unit := do
  let stdout ← IO.getStdout
  stdout.flush
  let line ← (← IO.getStdin).getLine
  if line.isEmpty then return
  let turn := session.turn Engine.ampleFuel line
  stdout.putStr turn.stdout
  (← IO.getStderr).putStr turn.stderr
  unless turn.ends do converse turn.session

def main (arguments : List String) : IO UInt32 := do
  let request := Request.ofArguments arguments
  match request with
  | .invoke invocation =>
    let sources ← readSources invocation
    let read (file : String) : Except FileError String :=
      (sources.lookup file).getD (.error .missing)
    match invocation.action, invocation.settings read with
    | .repl, .ok settings =>
      match settings.session .stock .standard with
      | .ok session =>
        (← IO.getStdout).putStr greeting
        converse session
        (← IO.getStdout).putStr farewell
        return 0
      | .error _ => printReport (invocation.perform Engine.ampleFuel read "")
    | _, _ => printReport (invocation.perform Engine.ampleFuel read "")
  | request => printReport (request.perform Engine.ampleFuel (fun _ => .error .missing) "")
