-- Values and faults as text, and the truth of a value.
import Builtins.Fault
import Builtins.Snapshot

namespace Builtins

namespace Heap

/-- A value as text. To write out a list that holds itself would never come to an end: its text here
is cut off. -/
def repr (h : Heap) (v : Value) : String := (h.snapshot v).render

/-- A value as it is printed: a string as it stands, anything else as its text. -/
def display (h : Heap) : Value → String
  | .text s => s
  | v => h.repr v

/-- Values as they are printed on one line. -/
def displayAll (h : Heap) (vs : List Value) : String := " ".intercalate (vs.map h.display)

/-- Whether a value counts as true: all but nothing, false, zero and what is empty. -/
def truthy (h : Heap) : Value → Bool
  | .null => false
  | .bool b => b
  | .int n => n != 0
  | .text s => !s.isEmpty
  | .list id => !(h.list id).isEmpty
  | .tuple items => !items.isEmpty
  | _ => true

/-- An exception under a given name. -/
def exceptionTextAs (h : Heap) (name : String) (e : ExceptionInstance) : String :=
  Snapshot.exceptionText name (e.payload.map h.repr)

/-- An exception under the display name of its class. -/
def exceptionText (h : Heap) (e : ExceptionInstance) : String :=
  h.exceptionTextAs e.kind.displayName e

/-- The line that reports an exception which nothing caught. -/
def uncaughtReport (h : Heap) (e : ExceptionInstance) : String :=
  "Exception: " ++ h.exceptionText e

end Heap

def Fault.message (h : Heap) : Fault → String
  | arity f expected found =>
    "Function '" ++ f ++ "' expected " ++ toString expected ++ " arguments, got " ++ toString found
  | arityRange f least most found =>
    "Function '" ++ f ++ "' expected " ++ toString least ++ " to " ++ toString most
      ++ " arguments, got " ++ toString found
  | argumentType operation argument expected got =>
    "Invalid argument type for operation '" ++ operation ++ "': '" ++ argument ++ "' expected "
      ++ expected ++ ", got " ++ got
  | operands operator left right =>
    "unsupported operand type(s) for " ++ operator ++ ": '" ++ left ++ "' and '" ++ right ++ "'"
  | overflow operator => "Integer overflow in '" ++ operator ++ "'"
  | notIterable typeName => "Object of type " ++ typeName ++ " is not iterable"
  | notCallable typeName => "Object of type " ++ typeName ++ " is not callable"
  | undefined name => "Undefined function '" ++ name ++ "'"
  | raised e => h.exceptionText e

/-- The text of an exception value is the text of the exception. -/
theorem Heap.repr_toValue (h : Heap) (e : ExceptionInstance) :
    h.repr e.toValue = h.exceptionText e := by
  rw [repr, snapshot, ExceptionInstance.toValue, Value.snapshotWith, Snapshot.render,
    Value.snapshotsWith_eq_map, Snapshot.renderAll_eq_map, List.map_map]
  rfl

end Builtins
