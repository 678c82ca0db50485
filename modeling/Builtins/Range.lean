-- The arguments of `range` and `xrange`: a stop, a start and a stop, or these and a step.
import Builtins.Fault
import Builtins.Progression

namespace Builtins

/-- The integer that an argument stands for. -/
def Value.wordArgument (function argument : String) (v : Value) : Except Fault Word :=
  match v.toWord? with
  | some n => .ok n
  | none => .error (.argumentType function argument "int" v.typeName)

/-- The progression that arguments describe. The start is zero and the step one unless they
are given; their number is checked first, then each from the left. -/
def Progression.ofArgs (function : String) (args : List Value) : Except Fault Progression := do
  Fault.checkArityRange function 1 3 args.length
  match args with
  | [] => return ⟨0, 0, 1⟩
  | [stop] => return ⟨0, ← stop.wordArgument function "end", 1⟩
  | [start, stop] =>
    return ⟨← start.wordArgument function "start", ← stop.wordArgument function "end", 1⟩
  | start :: stop :: step :: _ =>
    return ⟨← start.wordArgument function "start", ← stop.wordArgument function "end",
      ← step.wordArgument function "step"⟩

end Builtins
