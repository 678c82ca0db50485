-- Host functions as data. A script says step by step what a function of the host does:
-- call values, print lines, read the settings, look at the heap, make new objects, add to a
-- list, move an iterator. It has no other way to change the world.
import Builtins.Builtin.Behaviour

namespace Builtins

/-- What a script does to the heap in one step. -/
inductive Deed where
  | newList (items : List Value)
  | newException (kind : ExceptionKind) (payload : List Value)
  | append (list : ListId) (item : Value)
  | add (a b : Value)
  | iter (v : Value)
  /-- Makes an iterator object, over a generator as well. -/
  | iterate (v : Value)
  | next (v : Value)
  /-- Resumes a generator directly, which never raises. -/
  | resume (id : GeneratorId)

/-- Carries out a deed. What has no result of its own gives nothing. -/
def Deed.perform (h : Heap) : Deed → Except Fault Value × Heap
  | newList items =>
    let (id, h) := h.newList items.toArray
    (.ok (.list id), h)
  | newException kind payload =>
    let (e, h) := h.newException kind payload
    (.ok e.toValue, h)
  | append list item => (.ok .null, h.append list item)
  | add a b => h.add a b
  | iter v => h.iter v
  | iterate v =>
    let (it, h) := h.iterate v
    (it.map .iterator, h)
  | next v => h.next v
  | resume id =>
    let (result, h) := h.resume id
    (.ok (result.value?.elim .null .int), h)

/-- What is left to do of a host function. A step that can fail hands its answer, fault or
not, to the rest. -/
inductive Script (α : Type) where
  | done (result : α)
  | fail (fault : Fault)
  | call (callee : Value) (args : List Value) (rest : Except Fault Value → Script α)
  | write (line : String) (rest : Script α)
  | config (rest : Config → Script α)
  | look (rest : Heap → Script α)
  | act (deed : Deed) (rest : Except Fault Value → Script α)

namespace Script

def bind {α β : Type} : Script α → (α → Script β) → Script β
  | done result, f => f result
  | fail fault, _ => fail fault
  | call callee args rest, f => call callee args fun answer => (rest answer).bind f
  | write line rest, f => write line (rest.bind f)
  | config rest, f => config fun c => (rest c).bind f
  | look rest, f => look fun h => (rest h).bind f
  | act deed rest, f => act deed fun answer => (rest answer).bind f

instance : Monad Script where
  pure := done
  bind := bind

/-- Goes on with a result, and stops at a fault. -/
def ofExcept {α : Type} : Except Fault α → Script α
  | .ok result => done result
  | .error fault => fail fault

def invoke (callee : Value) (args : List Value) : Script Value := call callee args ofExcept

def perform (deed : Deed) : Script Value := act deed ofExcept

def print (line : String) : Script Unit := write line (done ())

def settings : Script Config := config done

def heap : Script Heap := look done

/-- Runs a script, given a way to make calls. -/
def run {α : Type} (settings : Config) (invoke : Caller) : Script α → Action α
  | done result => return result
  | fail fault => throw fault
  | call callee args rest => do
    let answer ← ExceptT.lift (invoke callee args).run
    (rest answer).run settings invoke
  | write line rest => do
    Action.write line
    rest.run settings invoke
  | config rest => (rest settings).run settings invoke
  | look rest => do (rest (← Action.heap)).run settings invoke
  | act deed rest => do
    let answer ← Action.onHeap (Deed.perform · deed)
    (rest answer).run settings invoke

end Script

/-- A function of the host: what it does with its arguments. -/
abbrev HostFunction := List Value → Script Value

end Builtins
