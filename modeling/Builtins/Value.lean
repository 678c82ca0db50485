-- The values of the language. Lists, generators and iterators live in the heap and a value
-- only names them; an exception carries its payload, which never changes, and the number
-- that tells it from every other exception.
import Builtins.Word
import Builtins.ExceptionKind
import Builtins.Builtin

namespace Builtins

/-- Names a list of the heap. -/
structure ListId where
  index : Nat
deriving DecidableEq

/-- Names a generator of the heap. -/
structure GeneratorId where
  index : Nat
deriving DecidableEq

/-- Names an iterator of the heap. -/
structure IteratorId where
  index : Nat
deriving DecidableEq

/-- Tells one exception from another. -/
structure ExceptionId where
  index : Nat
deriving DecidableEq

/-- Names a function of the host. -/
structure CallableId where
  index : Nat
deriving DecidableEq

/-- How a host function is named where only its number is known. -/
def CallableId.text (id : CallableId) : String := "<callable:" ++ toString id.index ++ ">"

/-- What an iterator goes over. -/
inductive IteratorKind where
  | list
  | tuple
  | text
  | generator
deriving DecidableEq

def IteratorKind.typeName : IteratorKind → String
  | list => "list_iterator"
  | tuple => "tuple_iterator"
  | text => "str_iterator"
  | generator => "generator"

/-- An iterator as a value holds it: its kind never changes. -/
structure Iterator where
  kind : IteratorKind
  id : IteratorId
deriving DecidableEq

/-- A value of the language. -/
inductive Value where
  | null
  | bool (b : Bool)
  | int (n : Word)
  | text (s : String)
  | list (id : ListId)
  | tuple (items : List Value)
  | exception (id : ExceptionId) (kind : ExceptionKind) (payload : List Value)
  | exceptionType (kind : ExceptionKind)
  | generator (id : GeneratorId)
  | iterator (it : Iterator)
  | builtin (b : Builtin)
  | function (id : CallableId) (name : String)

/-- An exception: its identity, its class, and the values it was made with. -/
structure ExceptionInstance where
  id : ExceptionId
  kind : ExceptionKind
  payload : List Value

def ExceptionInstance.toValue (e : ExceptionInstance) : Value :=
  .exception e.id e.kind e.payload

namespace Value

instance : Inhabited Value := ⟨null⟩

def typeName : Value → String
  | null => "NoneType"
  | bool _ => "bool"
  | int _ => "int"
  | text _ => "str"
  | list _ => "list"
  | tuple _ => "tuple"
  | exception _ kind _ => kind.name
  | exceptionType _ => "type"
  | generator _ => "generator"
  | iterator it => it.kind.typeName
  | builtin _ => "builtin_function_or_method"
  | function _ _ => "function"

/-- The integer that a value counts as. Truth values count as one and zero. -/
def toWord? : Value → Option Word
  | int n => some n
  | bool b => some (Word.ofBool b)
  | _ => none

def toException? : Value → Option ExceptionInstance
  | exception id kind payload => some ⟨id, kind, payload⟩
  | _ => none

@[simp] theorem toException?_toValue (e : ExceptionInstance) :
    e.toValue.toException? = some e := rfl

/-- Whether two values are one object of the heap, or one exception. Values of any other
type have no identity. -/
def same : Value → Value → Bool
  | list a, list b => a == b
  | exception a _ _, exception b _ _ => a == b
  | generator a, generator b => a == b
  | iterator a, iterator b => a == b
  | _, _ => false

end Value

end Builtins
