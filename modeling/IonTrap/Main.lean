import IonTrap.Command.Folder

/-!
# The program

Reads the files that a command names, prints its report and writes its file.
-/

namespace IonTrap

/-- What a path holds. -/
def readContent (path : String) : IO FileContent := do
  try
    return .text (← IO.FS.readFile path)
  catch e =>
    match e with
    | .noFileOrDirectory .. => return .missing
    | _ => return .unreadable

/-- The contents of the given paths, as a function. -/
def readContents (paths : List String) : IO (String → FileContent) := do
  let contents ← paths.mapM fun path => do
    return (path, ← readContent path)
  return fun path => (contents.lookup path).getD .missing

/-- A duration with one decimal, in a unit that suits it. -/
def durationText (nanoseconds : Nat) : String :=
  let (unit, suffix) :=
    if 1000000000 ≤ nanoseconds then (1000000000, "s")
    else if 1000000 ≤ nanoseconds then (1000000, "ms")
    else if 1000 ≤ nanoseconds then (1000, "µs")
    else (1, "ns")
  let tenths := (nanoseconds * 10 + unit / 2) / unit
  let whole := tenths / 10
  let rest := tenths % 10
  s!"{whole}.{rest}{suffix}"

/-- Reports an error. -/
def fail (message : String) : IO UInt32 := do
  IO.eprintln (errorLine message)
  return 1

/-- Prints a report and writes its file. -/
def perform (r : Report) : IO UInt32 := do
  r.lines.forM IO.println
  match r.ending with
  | .done => return 0
  | .failed message => fail message
  | .write file =>
    try
      IO.FS.writeFile file.path file.text
    catch _ =>
      return ← fail file.failure
    file.written.forM IO.println
    return 0

/-- Compiles a job and measures the time. -/
def timed (j : Command.Job) : IO (Except CompileError RoutedCircuit × String) := do
  let start ← IO.monoNanosNow
  let result ← IO.lazyPure fun _ => j.compile
  let stop ← IO.monoNanosNow
  return (result, durationText (stop - start))

/-- Runs a command. -/
def runCommand (c : Command) : IO UInt32 := do
  let files ← readContents c.paths
  match c with
  | .route o =>
    match Command.loadJob files o with
    | .ok j =>
      let (result, elapsed) ← timed j
      perform (Command.routeReport o j result elapsed)
    | .error _ => perform (c.report files "")
  | _ => perform (c.report files "")

end IonTrap

/-- Runs the command that the arguments describe. -/
def main (args : List String) : IO UInt32 := do
  let settings ← IO.getEnv "IONROUTE_SETTINGS"
  match IonTrap.Command.parse args settings with
  | some c => IonTrap.runCommand c
  | none =>
    IO.eprintln "Usage: ionroute [OPTIONS] <COMMAND>"
    return 2
