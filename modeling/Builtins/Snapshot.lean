-- What a value looks like at one moment: the value with the contents of its lists in the
-- place of their names. Two values are structurally equal when their snapshots are equal,
-- and the text of a value is the text of its snapshot.
import Builtins.Heap
import Builtins.Text.Quoted

namespace Builtins

/-- A value whose lists are spelled out. -/
inductive Snapshot where
  | null
  | bool (b : Bool)
  | int (n : Word)
  | text (s : String)
  | list (items : List Snapshot)
  | tuple (items : List Snapshot)
  | exception (kind : ExceptionKind) (payload : List Snapshot)
  | exceptionType (kind : ExceptionKind)
  | generator (id : GeneratorId)
  | iterator (it : Iterator)
  | builtin (b : Builtin)
  | function (id : CallableId) (name : String)
  /-- A list that holds itself, where it comes round again. -/
  | cycle

/-! ## Taking a snapshot -/

mutual

/-- The snapshot of a value, given those of the lists that it names. -/
def Value.snapshotWith (lists : ListId → Snapshot) : Value → Snapshot
  | .null => .null
  | .bool b => .bool b
  | .int n => .int n
  | .text s => .text s
  | .list id => lists id
  | .tuple items => .tuple (Value.snapshotsWith lists items)
  | .exception _ kind payload => .exception kind (Value.snapshotsWith lists payload)
  | .exceptionType kind => .exceptionType kind
  | .generator id => .generator id
  | .iterator it => .iterator it
  | .builtin b => .builtin b
  | .function id name => .function id name

def Value.snapshotsWith (lists : ListId → Snapshot) : List Value → List Snapshot
  | [] => []
  | v :: vs => v.snapshotWith lists :: Value.snapshotsWith lists vs

end

theorem Value.snapshotsWith_eq_map (lists : ListId → Snapshot) (vs : List Value) :
    Value.snapshotsWith lists vs = vs.map (Value.snapshotWith lists) := by
  induction vs with
  | nil => rfl
  | cons v vs ih => simp [Value.snapshotsWith, ih]

namespace Heap

/-- The snapshot of a list in which lists are spelled out `depth` deep, and cut off below that. To
spell out a list that holds itself would never come to an end. -/
def listSnapshot (h : Heap) : Nat → ListId → Snapshot
  | 0, _ => .cycle
  | depth + 1, id =>
    .list (Value.snapshotsWith (h.listSnapshot depth) (h.list id).toList)

/-- The snapshot of a value. Lists that do not hold themselves are nested no deeper than
there are lists, so only those that do are cut off. -/
def snapshot (h : Heap) (v : Value) : Snapshot :=
  v.snapshotWith (h.listSnapshot h.lists.size)

end Heap

/-! ## The text of a snapshot -/

namespace Snapshot

/-- Texts in the form of a tuple: a single one is followed by a comma. -/
def tupleText : List String → String
  | [item] => "(" ++ item ++ ",)"
  | items => "(" ++ ", ".intercalate items ++ ")"

def listText (items : List String) : String := "[" ++ ", ".intercalate items ++ "]"

/-- An exception with a display name and the texts of its payload: the bare name, the name
and the one value, or the name and a tuple. -/
def exceptionText (name : String) : List String → String
  | [] => name
  | [item] => name ++ ": " ++ item
  | items => name ++ ": " ++ tupleText items

/-- A text between two others. -/
def between (before after text : String) : String := before ++ text ++ after

def boolText : Bool → String
  | true => "True"
  | false => "False"

mutual

def render : Snapshot → String
  | null => "None"
  | bool b => boolText b
  | int n => toString n.toInt
  | text s => Text.Quoted.ofString s
  | list items => listText (renderAll items)
  | tuple items => tupleText (renderAll items)
  | exception kind payload => exceptionText kind.displayName (renderAll payload)
  | exceptionType kind => between "<class '" "'>" kind.name
  | generator _ => "<generator object xrange>"
  | iterator it => between "<" " object>" it.kind.typeName
  | builtin b => between "<built-in function " ">" b.name
  | function _ name => between "<function " ">" name
  | cycle => "[...]"

def renderAll : List Snapshot → List String
  | [] => []
  | s :: ss => s.render :: renderAll ss

end

theorem renderAll_eq_map (ss : List Snapshot) : renderAll ss = ss.map render := by
  induction ss with
  | nil => rfl
  | cons s ss ih => simp [renderAll, ih]

end Snapshot

end Builtins
