-- A stock of small host functions. Those that take exactly one argument check it under the
-- name `host`.
import Builtins.Script

namespace Builtins.Stock

def unary (body : Value → Script Value) : HostFunction := fun args =>
  match args with
  | [x] => body x
  | args => .fail (.arity "host" 1 args.length)

/-- The integer that a value counts as, or zero. -/
def wordOrZero (v : Value) : Word := v.toWord?.getD 0

def identity : HostFunction := unary .done

/-- Gives a fixed value for any arguments. -/
def always (v : Value) : HostFunction := fun _ => .done v

def addRight (v : Value) : HostFunction := unary fun x => .perform (.add x v)

def addLeft (v : Value) : HostFunction := unary fun x => .perform (.add v x)

def below (v : Value) : HostFunction := unary fun x => do
  return .bool (← .ofExcept (x.lessThan v))

def above (v : Value) : HostFunction := unary fun x => do
  return .bool (← .ofExcept (x.greaterThan v))

def negate : HostFunction := unary fun x => do
  return .bool (!(← .heap).truthy x)

def isOdd : HostFunction := unary fun x => .done (.bool ((wordOrZero x).toInt % 2 != 0))

def square : HostFunction := unary fun x =>
  match Word.mul? (wordOrZero x) (wordOrZero x) with
  | some n => .done (.int n)
  | none => .fail (.overflow "*")

/-- Prints its arguments on one line that ends with an exclamation mark. -/
def shout : HostFunction := fun args => do
  .print ((← .heap).displayAll args ++ "!")
  return .null

/-- Its arguments as a new list. -/
def gather : HostFunction := fun args => .perform (.newList args)

def pack : HostFunction := fun args => .done (.tuple args)

/-- The diagnostic of the settings, for any arguments. -/
def diagnostic : HostFunction := fun _ => do
  return .text (← .settings).rangeDiagnostic

/-- Fails as if a name were not defined, for any arguments. -/
def undefined (name : String) : HostFunction := fun _ => .fail (.undefined name)

/-- Raises an exception, always or only where the text of the argument is the given one.
Otherwise it hands back its argument. -/
def raise (e : ExceptionInstance) (when? : Option String) : HostFunction := unary fun x => do
  let text := (← .heap).repr x
  if when?.all (· == text) then .fail (.raised e) else return x

/-- Adds its argument to a list that is shorter than a limit, and hands it back. -/
def appendTo (list : ListId) (limit : Nat) : HostFunction := unary fun x => do
  if ((← .heap).list list).size < limit then discard (.perform (.append list x))
  return x

/-- Calls a function with some arguments in front of its own. -/
def partially (f : Value) (front : List Value) : HostFunction := fun args =>
  .invoke f (front ++ args)

/-- Applies functions one after the other, each to the last result. -/
def compose (fs : List Value) : HostFunction :=
  unary fun x => fs.foldlM (fun x f => .invoke f [x]) x

/-- Counts its calls from one, whatever its arguments. The count is the length of a list of
its own. -/
def counter (tally : ListId) : HostFunction := fun _ => do
  let _ ← .perform (.append tally .null)
  return .int (Int64.ofNat ((← .heap).list tally).size)

/-- Calls a function without arguments, whatever its own are. -/
def thunk (f : Value) : HostFunction := fun _ => .invoke f []

end Builtins.Stock
