-- Calls. Whatever is called, the fuel goes down by one, so calls that never come to an end
-- run out of it; a call that ends gives the same answer however much fuel is left.
import Builtins.Script

namespace Builtins

/-- What calls depend on and never change: the settings, and the functions of the host,
numbered from one in the order in which they were registered. -/
structure Host where
  config : Config := {}
  functions : Array HostFunction := #[]

namespace Host

def function? (host : Host) (id : CallableId) : Option HostFunction :=
  match id.index with
  | 0 => none
  | n + 1 => host.functions[n]?

/-- Registers a function under the next number. -/
def register (host : Host) (f : HostFunction) : CallableId × Host :=
  (⟨host.functions.size + 1⟩, { host with functions := host.functions.push f })

/-- Calls a value. Built-in and host functions run, an exception type makes an exception of
its arguments, and nothing else can be called. -/
def call (host : Host) : Nat → Caller
  | 0, _, _ => Action.outOfFuel
  | fuel + 1, callee, args =>
    match callee with
    | .builtin b => b.run host.config (host.call fuel) fuel args
    | .function id _ =>
      match host.function? id with
      | some f => (f args).run host.config (host.call fuel)
      | none => throw (.undefined id.text)
    | .exceptionType kind => do
      return (← Action.onHeap (·.newException kind args)).toValue
    | v => throw (.notCallable v.typeName)

/-! ## Registration -/

theorem function?_register (host : Host) (f : HostFunction) :
    (host.register f).2.function? (host.register f).1 = some f := by
  simp [register, function?]

end Host

end Builtins
