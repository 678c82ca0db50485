-- Global names. Every session starts with the built-in functions and the exception types
-- bound under their own names, but a name that is bound already stays as it is.
import Std.Data.TreeMap
import Builtins.Value

namespace Builtins

/-- The values that global names are bound to, in the order of the names. -/
abbrev Globals := Std.TreeMap String Value

namespace Globals

/-- The names that every session knows, with their values. -/
def standard : List (String × Value) :=
  Builtin.all.map (fun b => (b.name, .builtin b))
    ++ ExceptionKind.all.map (fun kind => (kind.name, .exceptionType kind))

def addMissing (g : Globals) (bindings : List (String × Value)) : Globals :=
  bindings.foldl (fun g (name, v) => g.insertIfNew name v) g

/-- Binds the standard names that are not bound yet. -/
def seed (g : Globals) : Globals := g.addMissing standard

def initial : Globals := seed ∅

end Globals

end Builtins
