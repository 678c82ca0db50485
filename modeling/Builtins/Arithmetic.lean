-- Addition and order of values. Both work within one class of types: whole numbers (truth
-- values among them), strings, and for addition also lists and tuples.
import Builtins.Heap
import Builtins.Fault

namespace Builtins

namespace Value

/-- The fault of an operator that does not apply to two values. -/
def mismatch (operator : String) (a b : Value) : Fault :=
  .operands operator a.typeName b.typeName

/-- The sum of two values that count as integers. -/
def addWords (a b : Value) : Except Fault Value :=
  match a.toWord?, b.toWord? with
  | some m, some n =>
    match Word.add? m n with
    | some sum => .ok (.int sum)
    | none => .error (.overflow "+")
  | _, _ => .error (mismatch "+" a b)

/-- How two values compare, for an operator. Strings compare by their code points. -/
def order (operator : String) (a b : Value) : Except Fault Ordering :=
  match a, b with
  | .text s, .text t => .ok (compare s t)
  | a, b =>
    match a.toWord?, b.toWord? with
    | some m, some n => .ok (compare m.toInt n.toInt)
    | _, _ => .error (mismatch operator a b)

def lessThan (a b : Value) : Except Fault Bool := (order "<" a b).map Ordering.isLT

def greaterThan (a b : Value) : Except Fault Bool := (order ">" a b).map Ordering.isGT

end Value

/-- The sum of two values. The sum of two lists is a new list. -/
def Heap.add (h : Heap) (a b : Value) : Except Fault Value × Heap :=
  match a, b with
  | .text s, .text t => (.ok (.text (s ++ t)), h)
  | .list l, .list m =>
    let (id, h) := h.newList (h.list l ++ h.list m)
    (.ok (.list id), h)
  | .tuple xs, .tuple ys => (.ok (.tuple (xs ++ ys)), h)
  | a, b => (Value.addWords a b, h)

end Builtins
