-- The program around the command line: it reads the file of settings, writes the lines, and
-- reports a failure.
import Builtins.CommandLine

namespace Builtins.Main

/-- The fuel of a run. A loop of more turns than these, which would take years, is given up. -/
def runFuel : Nat := Nat.pow 2 62

/-- The contents of a file, if it can be read as text. -/
def readText? (path : String) : IO (Option String) := do
  try
    return some (← IO.FS.readFile path)
  catch _ => return none

/-- The contents of the file of settings that a run reads. -/
def readConfig (args : List String) : IO (String → Option String) := do
  match CommandLine.configPath? args with
  | some path =>
    let text ← readText? path
    return fun _ => text
  | none => return fun _ => none

/-- Runs a command line, writes what it writes, and gives its exit status. -/
def runAndWrite (args : List String) : IO UInt32 := do
  let readFile ← readConfig args
  match CommandLine.run runFuel readFile args with
  | none => return 1
  | some outcome =>
    for line in outcome.lines do IO.println line
    if let some failure := outcome.failure then
      IO.eprintln ("Error: " ++ failure.message)
    return outcome.exitCode.toUInt32

end Builtins.Main

def main (args : List String) : IO UInt32 := Builtins.Main.runAndWrite args
