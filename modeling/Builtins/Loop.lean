-- Loops over the items of a value. Each item is taken when its turn comes, so a body sees
-- what earlier bodies did to the list or the generator that it goes over. The fuel bounds
-- the number of turns.
import Builtins.World
import Builtins.Iteration

namespace Builtins

/-- Feeds the items that a loop goes by to a body until none is left or the body fails. That none is
left is where `next` would raise the signal that ends an iteration, by `Heap.takeFrom_eq_none_iff`; a
signal that the body raises is a failure like any other. -/
def Run.loop {β ε : Type} (body : β → Value → ExceptT ε Run β) :
    Source → Nat → β → ExceptT ε Run β
  | _, 0, _ => ExceptT.mk Run.outOfFuel
  | source, fuel + 1, acc => do
    match ← ExceptT.lift (Run.onHeap (·.takeFrom source)) with
    | (none, _) => return acc
    | (some item, source) => Run.loop body source fuel (← body acc item)

namespace Action

/-- Feeds the items of a value to a body, from the left. -/
def foldItems {β : Type} (fuel : Nat) (v : Value) (start : β) (body : β → Value → Action β) :
    Action β := do
  let source ← ofExcept (Source.of v)
  Run.loop body source fuel start

def collect (fuel : Nat) (v : Value) : Action (Array Value) :=
  foldItems fuel v #[] fun items item => return items.push item

end Action

end Builtins
