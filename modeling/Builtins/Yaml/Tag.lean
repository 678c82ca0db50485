-- What a tag says about the node that it stands before: a name of its own, the kind of data
-- that a scalar is, or nothing. A tag comes as octets, of which none from a zero on count.
namespace Builtins.Yaml

/-- The meaning of a tag. -/
inductive Tag where
  /-- A name of its own, without the exclamation mark that it starts with. -/
  | named (name : String)
  | bool
  | int
  | float
  | null
  | text
  /-- A name of its own that is no UTF-8. It stands for no name at all. -/
  | unreadable
deriving DecidableEq

/-- What the names of YAML itself begin with. -/
def coreTag : String := "tag:yaml.org,2002:"

/-- A tag without the exclamation mark that it starts with, unless it is nothing else. -/
def bareTag (tag : String) : String :=
  match tag.toList with
  | '!' :: c :: cs => String.ofList (c :: cs)
  | _ => tag

namespace Tag

/-- The meaning of a tag that is a text. Only names of their own start with `!`, and any other
name that is not known says that the scalar is a text. -/
def ofName (name : String) : Tag :=
  if name.toList.head? == some '!' then named (bareTag name)
  else if name == coreTag ++ "bool" then bool
  else if name == coreTag ++ "int" then int
  else if name == coreTag ++ "float" then float
  else if name == coreTag ++ "null" then null
  else text

def ofOctets (octets : List UInt8) : Tag :=
  let octets := octets.takeWhile (· != 0)
  match String.fromUTF8? ⟨octets.toArray⟩ with
  | some name => ofName name
  | none => if octets.head? == some 0x21 then unreadable else text

end Tag

end Builtins.Yaml
