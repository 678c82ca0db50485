-- YAML data: what a document means, and when it means nothing at all.
import Builtins.Yaml.Node
import Builtins.Yaml.Scalar

namespace Builtins.Yaml

/-- A piece of YAML data. -/
inductive Tree where
  | null
  | bool (b : Bool)
  | int (n : Int)
  | float (x : Decimal.Binary64)
  | text (s : String)
  | sequence (items : List Tree)
  | mapping (entries : List (Tree × Tree))
  | tagged (tag : String) (content : Tree)

def Scalar.toTree : Scalar → Tree
  | null => .null
  | bool b => .bool b
  | int n => .int n
  | float x => .float x
  | text s => .text s

namespace Tree

/-! ## Equality -/

mutual

/-- Whether two trees are equal. The order of the entries of a mapping does not matter. -/
def same : Tree → Tree → Bool
  | null, null => true
  | bool a, bool b => a == b
  | int m, int n => m == n
  | float x, float y => x.sameNumber y
  | text s, text t => s == t
  | sequence xs, sequence ys => sameAll xs ys
  | mapping xs, mapping ys => xs.length == ys.length && sameEntries xs ys
  | tagged s x, tagged t y => bareTag s == bareTag t && x.same y
  | _, _ => false

/-- Whether two lists of trees are equal item by item. -/
def sameAll : List Tree → List Tree → Bool
  | [], [] => true
  | x :: xs, y :: ys => x.same y && sameAll xs ys
  | _, _ => false

/-- Whether each entry has an equal one among others. -/
def sameEntries : List (Tree × Tree) → List (Tree × Tree) → Bool
  | [], _ => true
  | (k, v) :: xs, ys => ys.any (fun e => k.same e.1 && v.same e.2) && sameEntries xs ys

end

def distinctKeys : List (Tree × Tree) → Bool
  | [] => true
  | (k, _) :: entries => !(entries.any fun e => k.same e.1) && distinctKeys entries

/-! ## The meaning of nodes -/

/-- The deepest that sequences and mappings may be nested. -/
def maxDepth : Nat := 128

/-- A tree under the tag of its node. Only names of their own are kept. -/
def withTag (tag : Option Tag) (content : Tree) : Tree :=
  match tag with
  | some (.named name) => .tagged name content
  | _ => content

/-- The meaning of a scalar without a tag that says what it is. -/
def ofText? (style : Style) (s : String) : Option Tree :=
  match style with
  | .plain => (Scalar.ofPlain? s).map Scalar.toTree
  | .quoted => some (.text s)

/-- The meaning of a scalar. A tag that says what it is counts whatever its style. -/
def ofScalar? (tag : Option Tag) (style : Style) (s : String) : Option Tree :=
  match tag with
  | some .bool => (Scalar.bool? s).map .bool
  | some .int => (Scalar.ofInteger s).map Scalar.toTree
  | some .float => (Scalar.float? s).map .float
  | some .null => if Scalar.isNull s then some .null else none
  | some .text => some (.text s)
  | tag => (ofText? style s).map (withTag tag)

mutual

/-- The meaning of a node whose sequences and mappings may be nested `depth` deep. -/
def ofNode? (depth : Nat) : Node → Option Tree
  | .scalar tag style s => ofScalar? tag style s
  | .sequence tag items =>
    match depth with
    | 0 => none
    | depth + 1 => do return withTag tag (.sequence (← ofItems? depth items))
  | .mapping tag entries =>
    match depth with
    | 0 => none
    | depth + 1 => do
      let entries ← ofEntries? depth entries
      if distinctKeys entries then return withTag tag (.mapping entries) else none

def ofItems? (depth : Nat) : List Node → Option (List Tree)
  | [] => some []
  | n :: ns => do return (← ofNode? depth n) :: (← ofItems? depth ns)

def ofEntries? (depth : Nat) : List (Node × Node) → Option (List (Tree × Tree))
  | [] => some []
  | (k, v) :: es => do return (← ofNode? depth k, ← ofNode? depth v) :: (← ofEntries? depth es)

end

def ofSource? (source : String) : Option Tree := do ofNode? maxDepth (← Node.ofSource? source)

end Tree

end Builtins.Yaml
