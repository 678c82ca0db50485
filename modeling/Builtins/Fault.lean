-- The ways in which a call goes wrong: eight faults of the language itself, and an exception
-- that was raised.
import Builtins.Value

namespace Builtins

/-- Why a call has no result. -/
inductive Fault where
  /-- A function wants exactly `expected` arguments. -/
  | arity (function : String) (expected found : Nat)
  /-- A function wants `least` to `most` arguments. -/
  | arityRange (function : String) (least most found : Nat)
  /-- An argument is of the wrong type. -/
  | argumentType (operation argument expected got : String)
  /-- An operator does not apply to two types. -/
  | operands (operator left right : String)
  /-- A result does not fit into a word. -/
  | overflow (operator : String)
  | notIterable (typeName : String)
  | notCallable (typeName : String)
  | undefined (name : String)
  | raised (e : ExceptionInstance)

namespace Fault

/-- Whether the fault is the raised signal that an iteration is over. -/
def endsIteration : Fault → Bool
  | raised e => e.kind.endsIteration
  | _ => false

/-- The exception that was raised. -/
def exception? : Fault → Option ExceptionInstance
  | raised e => some e
  | _ => none

/-- Whether two faults are the same: equal causes, or one and the same exception. -/
def same : Fault → Fault → Bool
  | arity f e n, arity f' e' n' => f == f' && e == e' && n == n'
  | arityRange f a b n, arityRange f' a' b' n' => f == f' && a == a' && b == b' && n == n'
  | argumentType o a e g, argumentType o' a' e' g' => o == o' && a == a' && e == e' && g == g'
  | operands o l r, operands o' l' r' => o == o' && l == l' && r == r'
  | overflow o, overflow o' => o == o'
  | notIterable t, notIterable t' => t == t'
  | notCallable t, notCallable t' => t == t'
  | undefined n, undefined n' => n == n'
  | raised e, raised e' => e.id == e'.id
  | _, _ => false

/-- Refuses a number of arguments other than `expected`. -/
def checkArity (function : String) (expected found : Nat) : Except Fault Unit :=
  if expected = found then .ok () else .error (arity function expected found)

/-- Refuses a number of arguments outside `least` to `most`. -/
def checkArityRange (function : String) (least most found : Nat) : Except Fault Unit :=
  if least ≤ found ∧ found ≤ most then .ok ()
  else .error (arityRange function least most found)

end Fault

end Builtins
