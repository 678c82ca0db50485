-- The command line: one built-in function or exception type is called with literals, and what
-- it prints and gives is written out. Here is what a run writes and how it ends; reading files
-- is left to the program around it, and reading YAML to whatever reader there is.
import Builtins.Session
import Builtins.Literal
import Builtins.Config.Yaml

namespace Builtins.CommandLine

def usage : String := "Usage: pybuiltin [--config PATH] NAME [ARG ...]"

/-! ## Arguments -/

/-- What the arguments ask for. -/
inductive Invocation where
  | help
  /-- Call `name` with literals, under the settings of a file if one is named. -/
  | call (config : Option String) (name : String) (literals : List String)
deriving DecidableEq

/-- Why a run fails before or while it calls. -/
inductive Failure where
  | missingPath (option : String)
  | missingName
  | unreadable (path : String)
  | malformed (path : String)
  | literal (source : String)
  /-- A call ended with a fault that is no exception. -/
  | call (name message : String)
deriving DecidableEq

def Failure.message : Failure → String
  | missingPath option => "Missing config path after " ++ option
  | missingName => "Missing builtin name\n" ++ usage
  | unreadable path => "Reading " ++ path
  | malformed path => "Loading " ++ path
  | literal source => "Parsing argument " ++ source
  | call name message => "Calling " ++ name ++ ": " ++ message

/-- Whether an argument is the option that names a file of settings. -/
def isConfigOption (arg : String) : Bool := arg == "--config" || arg == "-c"

def isHelpOption (arg : String) : Bool := arg == "--help" || arg == "-h"

/-- Reads arguments after a file of settings has been named or not; the last one counts. The
first argument that is no option is the name, and all after it are literals. -/
def parseAfter (config : Option String) : List String → Except Failure Invocation
  | [] => .error .missingName
  | arg :: args =>
    if isConfigOption arg then
      match args with
      | path :: args => parseAfter (some path) args
      | [] => .error (.missingPath arg)
    else if isHelpOption arg then .ok .help
    else .ok (.call config arg args)

def parse (args : List String) : Except Failure Invocation := parseAfter none args

/-- The path of the file of settings that is read, if one is. -/
def configPath? (args : List String) : Option String :=
  match parse args with
  | .ok (.call path _ _) => path
  | _ => none

/-! ## Runs -/

/-- What a run writes, line by line, and how it fails if it does. -/
structure Outcome where
  lines : List String := []
  failure : Option Failure := none
deriving DecidableEq

def Outcome.exitCode (o : Outcome) : Nat := if o.failure.isSome then 1 else 0

/-- The settings of the file that is named, given how files are read. -/
def loadConfig [Yaml.Reader] (readFile : String → Option String) :
    Option String → Except Failure Config
  | none => .ok {}
  | some path =>
    match readFile path with
    | none => .error (.unreadable path)
    | some source =>
      match Config.ofSource source with
      | .ok config => .ok config
      | .error _ => .error (.malformed path)

/-- The values of literals, from the left. -/
def values [Yaml.Reader] (g : Globals) : List String → Heap → Except Failure (List Value) × Heap
  | [], h => (.ok [], h)
  | source :: sources, h =>
    match (Literal.ofSource g source).run.run h with
    | (.ok v, h) =>
      match values g sources h with
      | (.ok vs, h) => (.ok (v :: vs), h)
      | (.error failure, h) => (.error failure, h)
    | (.error _, h) => (.error (.literal source), h)

/-- Writes out what a call gave: the values of a generator or an iterator one to a line,
nothing for nothing, and any other value as it is. -/
def writeResult (fuel : Nat) (v : Value) : Action Unit := do
  match v with
  | .generator _ | .iterator _ =>
    Action.foldItems fuel v () fun _ item => do Action.write ((← Action.heap).repr item)
  | .null => return ()
  | v => Action.write ((← Action.heap).repr v)

/-- Calls a global name and writes out what it gave. -/
def callAndWrite (s : Session) (fuel : Nat) (name : String) (args : List Value) :
    Option (Except Fault Unit × Session) := do
  match ← s.callGlobal fuel name args with
  | (.ok v, s) => s.perform (writeResult fuel v)
  | (.error fault, s) => return (.error fault, s)

/-- How a run ends after its call: an exception is reported as the last line, and any other
fault is a failure. -/
def conclude (name : String) (result : Except Fault Unit) (s : Session) : Outcome :=
  let lines := s.takeOutput.1
  let heap := s.world.heap
  match result with
  | .ok () => { lines }
  | .error (.raised e) => { lines := lines ++ [heap.uncaughtReport e] }
  | .error fault => { lines, failure := some (.call name (fault.message heap)) }

/-- Calls a name with literals in a new session. -/
def runCall [Yaml.Reader] (fuel : Nat) (config : Config) (name : String)
    (literals : List String) : Option Outcome := do
  let s := Session.new config
  match values s.globals literals s.world.heap with
  | (.error failure, _) => return { failure := some failure }
  | (.ok args, heap) =>
    let s := { s with world := { s.world with heap } }
    let (result, s) ← callAndWrite s fuel name args
    return conclude name result s

/-- Runs a command line, given how files are read. -/
def run [Yaml.Reader] (fuel : Nat) (readFile : String → Option String) (args : List String) :
    Option Outcome :=
  match parse args with
  | .error failure => some { failure := some failure }
  | .ok .help => some { lines := [usage] }
  | .ok (.call config name literals) =>
    match loadConfig readFile config with
    | .error failure => some { failure := some failure }
    | .ok config => runCall fuel config name literals

end Builtins.CommandLine
