-- The ten built-in functions and their names.
namespace Builtins

/-- A built-in function. -/
inductive Builtin where
  | print
  | len
  | repr
  | iter
  | next
  | map
  | filter
  | sum
  | range
  | xrange
deriving DecidableEq

namespace Builtin

def all : List Builtin := [print, len, repr, iter, next, map, filter, sum, range, xrange]

/-- The name that a program calls the function by. -/
def name : Builtin → String
  | print => "print"
  | len => "len"
  | repr => "repr"
  | iter => "iter"
  | next => "next"
  | map => "map"
  | filter => "filter"
  | sum => "sum"
  | range => "range"
  | xrange => "xrange"

def ofName? (name : String) : Option Builtin := all.find? (·.name == name)

theorem mem_all (b : Builtin) : b ∈ all := by cases b <;> decide

theorem ofName?_name (b : Builtin) : ofName? b.name = some b := by cases b <;> decide

end Builtin

end Builtins
