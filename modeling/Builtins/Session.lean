-- A session: the host's settings and functions, the global names, and the world that calls
-- change. A call gets its fuel from outside and answers `none` only if that runs out.
import Builtins.Call
import Builtins.Globals

namespace Builtins

/-- Everything that one run of a program holds. -/
structure Session where
  host : Host := {}
  globals : Globals := Globals.initial
  world : World := {}

namespace Session

def new (config : Config) : Session := { host := { config } }

def global? (s : Session) (name : String) : Option Value := s.globals[name]?

/-- Registers a host function and binds a global name to it. -/
def define (s : Session) (name : String) (f : HostFunction) : Value × Session :=
  let (id, host) := s.host.register f
  let v := Value.function id name
  (v, { s with host, globals := s.globals.insert name v })

/-- What an action answers, and the session after it. -/
def perform {α : Type} (s : Session) (action : Action α) : Option (Except Fault α × Session) :=
  match s with
  | ⟨host, globals, world⟩ => do
    let (answer, world) ← action.run.run world
    return (answer, ⟨host, globals, world⟩)

def call (s : Session) (fuel : Nat) (f : Value) (args : List Value) :
    Option (Except Fault Value × Session) :=
  s.perform (s.host.call fuel f args)

def callGlobal (s : Session) (fuel : Nat) (name : String) (args : List Value) :
    Option (Except Fault Value × Session) :=
  match s.global? name with
  | some f => s.call fuel f args
  | none => some (.error (.undefined name), s)

/-- The printed lines, and the session without them. -/
def takeOutput (s : Session) : List String × Session :=
  (s.world.output.toList, { s with world := { s.world with output := #[] } })

end Session

end Builtins
