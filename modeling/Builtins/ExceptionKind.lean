-- The kinds of exception: a base kind, the signal that an iteration is over, and a failed
-- assertion. The signal shares the display name of the base kind.
namespace Builtins

/-- The class of an exception. -/
inductive ExceptionKind where
  | exception
  | stopIteration
  | assertionError
deriving DecidableEq

namespace ExceptionKind

def all : List ExceptionKind := [exception, stopIteration, assertionError]

/-- The class name, under which a kind is looked up. -/
def name : ExceptionKind → String
  | exception => "Exception"
  | stopIteration => "StopIteration"
  | assertionError => "AssertionError"

/-- The name that an instance is displayed with. -/
def displayName : ExceptionKind → String
  | exception | stopIteration => "Exception"
  | assertionError => "AssertionError"

def ofName? (name : String) : Option ExceptionKind := all.find? (·.name == name)

/-- Whether the kind says that an iteration is over. -/
def endsIteration : ExceptionKind → Bool
  | stopIteration => true
  | exception | assertionError => false

theorem mem_all (kind : ExceptionKind) : kind ∈ all := by cases kind <;> decide

theorem ofName?_name (kind : ExceptionKind) : ofName? kind.name = some kind := by
  cases kind <;> decide

end ExceptionKind

end Builtins
