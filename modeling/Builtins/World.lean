-- What calls change: the heap and the printed lines. A computation ends with a result or a
-- fault and with the world that it leaves; `none` says that its fuel ran out, which no
-- finished answer depends on.
import Builtins.Heap
import Builtins.Fault

namespace Builtins

/-- The heap and the lines printed so far, oldest first. -/
structure World where
  heap : Heap := {}
  output : Array String := #[]

/-- A computation on the world that always ends, or has too little fuel. -/
abbrev Run := StateT World Option

/-- A computation that may also fail. A failure keeps what was done to the world. -/
abbrev Action := ExceptT Fault Run

namespace Run

def outOfFuel {α : Type} : Run α := fun _ => none

/-- A step on the heap alone. -/
def onHeap {α : Type} (step : Heap → α × Heap) : Run α := fun ⟨heap, output⟩ =>
  let (result, heap) := step heap
  some (result, ⟨heap, output⟩)

def heap : Run Heap := fun w => some (w.heap, w)

def write (line : String) : Run Unit := fun ⟨heap, output⟩ =>
  some ((), ⟨heap, output.push line⟩)

end Run

namespace Action

def outOfFuel {α : Type} : Action α := ExceptT.lift Run.outOfFuel

/-- A step on the heap alone, which cannot fail. -/
def onHeap {α : Type} (step : Heap → α × Heap) : Action α := ExceptT.lift (Run.onHeap step)

/-- A step on the heap alone, which may fail. -/
def attempt {α : Type} (step : Heap → Except Fault α × Heap) : Action α :=
  ExceptT.mk (Run.onHeap step)

/-- The answer of a check that changes nothing. -/
def ofExcept {α : Type} (result : Except Fault α) : Action α := ExceptT.mk (pure result)

def heap : Action Heap := ExceptT.lift Run.heap

def write (line : String) : Action Unit := ExceptT.lift (Run.write line)

def newList (items : Array Value) : Action Value :=
  return .list (← onHeap (·.newList items))

end Action

end Builtins
