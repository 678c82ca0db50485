-- What a program takes from a reader of YAML: data, and records as they are declared. Programs are
-- written for any reader. The one here goes by the nodes of a source.
import Builtins.Record
import Builtins.Yaml.Tree

namespace Builtins.Yaml

/-- A reader of YAML. Why it reads nothing is not told. -/
class Reader where
  /-- The data of a source. -/
  tree? : String → Option Tree
  /-- The texts of the fields of a record, in their order. -/
  record? : Record → String → Option (List String)

/-- The text of a scalar as it is written. A number or a word for nothing is a text like any other. -/
def Node.scalarText? : Node → Option String
  | .scalar _ _ text => some text
  | _ => none

/-- The entries of a mapping of scalars. A plain scalar without text is an empty mapping. -/
def Node.entries? : Node → Option (List (String × String))
  | .mapping _ entries =>
    entries.mapM fun (key, value) => do return (← scalarText? key, ← scalarText? value)
  | .scalar _ .plain "" => some []
  | _ => none

/-- The entries of a source that is a mapping of scalars. -/
def entries? (source : String) : Option (List (String × String)) :=
  (Node.ofSource? source).bind Node.entries?

/-- The reader that goes by nodes. Anchors, block scalars and directives are nothing to it. -/
instance nodeReader : Reader where
  tree? := Tree.ofSource?
  record? r source := (entries? source).bind (r.visit .none)

end Builtins.Yaml
