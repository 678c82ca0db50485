-- What each built-in function does with its arguments. How a value is called is a parameter
-- here, and so is the fuel of a loop; both are tied together where calls are made.
import Builtins.Config
import Builtins.Loop
import Builtins.Range
import Builtins.Arithmetic
import Builtins.Repr

namespace Builtins

/-- A way to call a value with arguments. -/
abbrev Caller := Value → List Value → Action Value

namespace Builtin

/-- The number of elements or characters. -/
def length (h : Heap) : Value → Except Fault Value
  | .list id => .ok (.int (Int64.ofNat (h.list id).size))
  | .tuple items => .ok (.int (Int64.ofNat items.length))
  | .text s => .ok (.int (Int64.ofNat s.length))
  | v => .error (.argumentType "len" "obj" "sized" v.typeName)

/-- Calls `f` with an item and puts the result behind those before it. -/
def mapItem (invoke : Caller) (f : Value) (results : Array Value) (item : Value) :
    Action (Array Value) :=
  return results.push (← invoke f [item])

/-- The results of calling `f` with each item, as a new list. -/
def mapItems (invoke : Caller) (fuel : Nat) (f v : Value) : Action Value := do
  Action.newList (← Action.foldItems fuel v #[] (mapItem invoke f))

/-- Whether `filter` keeps an item: where there is no predicate, the truth of the item. -/
def keeps (invoke : Caller) (f item : Value) : Action Bool := do
  match f with
  | .null => return (← Action.heap).truthy item
  | f =>
    let answer ← invoke f [item]
    return (← Action.heap).truthy answer

/-- Puts an item behind those before it if `f` holds of it. -/
def filterItem (invoke : Caller) (f : Value) (kept : Array Value) (item : Value) :
    Action (Array Value) :=
  return if ← keeps invoke f item then kept.push item else kept

/-- The items that `f` holds of, as a new list. -/
def filterItems (invoke : Caller) (fuel : Nat) (f v : Value) : Action Value := do
  Action.newList (← Action.foldItems fuel v #[] (filterItem invoke f))

/-- Adds an item to what the items before it have come to. -/
def addItem (total item : Value) : Action Value := Action.attempt (·.add total item)

/-- The items added up from the left, onto a first summand. -/
def sumItems (fuel : Nat) (v start : Value) : Action Value :=
  Action.foldItems fuel v start addItem

/-- The values of a progression as a new list. One without values prints the diagnostic. -/
def rangeList (config : Config) (p : Progression) : Action Value := do
  unless p.iterates do Action.write config.rangeDiagnostic
  Action.newList (p.values.map Value.int).toArray

def oneArgument (function : String) : List Value → Except Fault Value
  | [v] => .ok v
  | args => .error (.arity function 1 args.length)

def twoArguments (function : String) : List Value → Except Fault (Value × Value)
  | [v, w] => .ok (v, w)
  | args => .error (.arity function 2 args.length)

/-- The arguments of `sum`: the items, and the first summand or zero. -/
def sumArguments : List Value → Except Fault (Value × Value)
  | [v] => .ok (v, .int 0)
  | [v, start] => .ok (v, start)
  | args => .error (.arityRange "sum" 1 2 args.length)

def run (config : Config) (invoke : Caller) (fuel : Nat) (b : Builtin) (args : List Value) :
    Action Value := do
  match b with
  | print =>
    Action.write ((← Action.heap).displayAll args)
    return .null
  | len =>
    let v ← Action.ofExcept (oneArgument "len" args)
    Action.ofExcept (length (← Action.heap) v)
  | repr =>
    let v ← Action.ofExcept (oneArgument "repr" args)
    return .text ((← Action.heap).repr v)
  | iter =>
    let v ← Action.ofExcept (oneArgument "iter" args)
    Action.attempt (·.iter v)
  | next =>
    let v ← Action.ofExcept (oneArgument "next" args)
    Action.attempt (·.next v)
  | map =>
    let (f, v) ← Action.ofExcept (twoArguments "map" args)
    mapItems invoke fuel f v
  | filter =>
    let (f, v) ← Action.ofExcept (twoArguments "filter" args)
    filterItems invoke fuel f v
  | sum =>
    let (v, start) ← Action.ofExcept (sumArguments args)
    sumItems fuel v start
  | range =>
    let p ← Action.ofExcept (Progression.ofArgs "range" args)
    rangeList config p
  | xrange =>
    let p ← Action.ofExcept (Progression.ofArgs "xrange" args)
    return .generator (← Action.onHeap (·.newGenerator p))

end Builtin

end Builtins
