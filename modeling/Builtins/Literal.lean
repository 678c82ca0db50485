-- Literals: YAML data as values. Sequences become new lists, those tagged `!tuple` become
-- tuples, and a text that starts with `@` is the value of a global name.
import Builtins.Yaml.Reader
import Builtins.Decimal.Shortest
import Builtins.Globals
import Builtins.Heap
import Builtins.Text.Blank

namespace Builtins

/-- Why a literal has no value. -/
inductive LiteralError where
  /-- The source is no YAML. -/
  | yaml
  /-- The data is of a kind that no literal has. -/
  | unsupported (kind : String)
  | unknownGlobal (name : String)
deriving DecidableEq

/-- The message of a literal's error. The one for YAML says no more than that. -/
def LiteralError.message : LiteralError → String
  | yaml => "Invalid literal"
  | unsupported kind =>
    "Unsupported literal " ++ kind
      ++ ": only null, bool, int, str, sequences and !tuple are allowed"
  | unknownGlobal name => "Unknown global '" ++ name ++ "'"

namespace Literal

def ofGlobal (g : Globals) (name : String) : Except LiteralError Value :=
  match g[name]? with
  | some v => .ok v
  | none => .error (.unknownGlobal name)

/-- The global name that a text refers to: what follows a leading `@`. -/
def reference? (cs : List Char) : Option String :=
  match cs with
  | '@' :: name => some (String.ofList name)
  | _ => none

def ofText (g : Globals) (s : String) : Except LiteralError Value :=
  match reference? s.toList with
  | some name => ofGlobal g name
  | none => .ok (.text s)

def ofInt (n : Int) : Except LiteralError Value :=
  match Word.ofInt? n with
  | some w => .ok (.int w)
  | none => .error (.unsupported ("number " ++ toString n))

def tupleTag : String := "tuple"

/-- The error of a tag, or of what stands under the tag of tuples. -/
def tagError (tag : String) : LiteralError :=
  if Yaml.bareTag tag == tupleTag then .unsupported "!tuple without a sequence"
  else .unsupported ("tag !" ++ Yaml.bareTag tag)

/-- What a step on the heap answers for a literal, and the heap after it. -/
abbrev Step := ExceptT LiteralError (StateM Heap)

/-- An answer that needs no heap. -/
def answer {α : Type} (result : Except LiteralError α) : Step α := ExceptT.mk (pure result)

def newList (items : List Value) : Step Value := do
  return .list (← (ExceptT.lift (modifyGet (·.newList items.toArray)) : Step ListId))

mutual

/-- The value of a piece of data. The first error from the left counts. -/
def ofTree (g : Globals) : Yaml.Tree → Step Value
  | .null => return .null
  | .bool b => return .bool b
  | .int n => answer (ofInt n)
  | .float x => throw (.unsupported ("number " ++ x.render))
  | .text s => answer (ofText g s)
  | .sequence items => do newList (← ofTrees g items)
  | .mapping _ => throw (.unsupported "mapping")
  | .tagged tag (.sequence items) => do
    if Yaml.bareTag tag == tupleTag then return .tuple (← ofTrees g items)
    else throw (tagError tag)
  | .tagged tag _ => throw (tagError tag)

def ofTrees (g : Globals) : List Yaml.Tree → Step (List Value)
  | [] => return []
  | t :: ts => do return (← ofTree g t) :: (← ofTrees g ts)

end

/-- The value of a source. One that starts with `@` is a global name and no YAML. -/
def ofSource [Yaml.Reader] (g : Globals) (source : String) : Step Value :=
  match reference? (Text.trim source.toList) with
  | some name => answer (ofGlobal g name)
  | none =>
    match Yaml.Reader.tree? source with
    | some tree => ofTree g tree
    | none => throw .yaml

end Literal

end Builtins
