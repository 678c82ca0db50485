-- Records of texts as they are declared: which fields there are, what these are by default, and
-- whether other names may come. A record is read from the entries of a mapping, one after the other.
namespace Builtins

/-- The declaration of a record of texts. -/
structure Record where
  /-- The names of the fields, each with what the field is by default. -/
  fields : List (String × String)
  /-- Whether a field that is not given is what it is by default. -/
  fillsIn : Bool
  /-- Whether a name that is no field is refused. -/
  refusesOthers : Bool

namespace Record

def names (r : Record) : List String := r.fields.map Prod.fst

/-- The texts of the fields that have been given. -/
abbrev Given := String → Option String

def Given.none : Given := fun _ => Option.none

def Given.put (given : Given) (name text : String) : Given :=
  fun other => if other = name then some text else given other

/-- The texts of the fields, in their order, once all entries have been read. -/
def complete? (r : Record) (given : Given) : Option (List String) :=
  r.fields.mapM fun (name, usual) => (given name).or (if r.fillsIn then some usual else Option.none)

/-- The texts of the fields of which some are given, after the entries that are still to be read. -/
def visit (r : Record) (given : Given) : List (String × String) → Option (List String)
  | [] => r.complete? given
  | (name, text) :: entries =>
    if name ∈ r.names then
      if (given name).isSome then Option.none else r.visit (given.put name text) entries
    else if r.refusesOthers then Option.none
    else r.visit given entries

end Record

end Builtins
