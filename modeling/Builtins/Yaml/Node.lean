-- The nodes of a YAML document: what its tokens spell, before scalars have a meaning.
import Builtins.Yaml.Tokens

namespace Builtins.Yaml

/-- A node with the tag that it was given. -/
inductive Node where
  | scalar (tag : Option Tag) (style : Style) (text : String)
  | sequence (tag : Option Tag) (items : List Node)
  | mapping (tag : Option Tag) (entries : List (Node × Node))

namespace Node

/-- The node of nothing: a plain scalar without text. -/
def empty : Node := .scalar none .plain ""

/-- The tag in front of a node, and the tokens after it. -/
def takeTag : List Token → Option Tag × List Token
  | .tag tag :: ts => (some tag, ts)
  | ts => (none, ts)

/-- Whether one of `ends` comes next. -/
def isNext (ends : List Token) : List Token → Bool
  | t :: _ => t ∈ ends
  | [] => false

/-- The comma between two entries inside brackets. The first entry has none. -/
def takeComma (first : Bool) : List Token → Option (List Token)
  | .flowEntry :: ts => if first then some (.flowEntry :: ts) else some ts
  | ts => if first then some ts else none

mutual

/-- Reads a node. Blocks may not stand inside brackets, and a sequence at the indentation of
its mapping only as a key or a value of that mapping. -/
def read (fuel : Nat) (inBlock inMapping : Bool) (ts : List Token) :
    Option (Node × List Token) :=
  match fuel with
  | 0 => none
  | fuel + 1 =>
    let (tag, ts) := takeTag ts
    match ts with
    | .scalar style text :: ts => some (.scalar tag style text, ts)
    | .flowSequenceStart :: ts => do
      let (items, ts) ← readFlowSequence fuel true ts
      return (.sequence tag items, ts)
    | .flowMappingStart :: ts => do
      let (entries, ts) ← readFlowMapping fuel true ts
      return (.mapping tag entries, ts)
    | ts =>
      match inBlock, inMapping, ts with
      | true, _, .blockSequenceStart :: ts => do
        let (items, ts) ← readBlockSequence fuel ts
        return (.sequence tag items, ts)
      | true, _, .blockMappingStart :: ts => do
        let (entries, ts) ← readBlockMapping fuel ts
        return (.mapping tag entries, ts)
      | _, true, .blockEntry :: _ => do
        let (items, ts) ← readBareSequence fuel ts
        return (.sequence tag items, ts)
      | _, _, ts => tag.map fun tag => (.scalar (some tag) .plain "", ts)

/-- Reads a node, or none where one of `ends` comes next. -/
def readUnless (fuel : Nat) (ends : List Token) (inBlock inMapping : Bool) (ts : List Token) :
    Option (Node × List Token) :=
  match fuel with
  | 0 => none
  | fuel + 1 => if isNext ends ts then some (empty, ts) else read fuel inBlock inMapping ts

def readBlockSequence (fuel : Nat) (ts : List Token) : Option (List Node × List Token) :=
  match fuel, ts with
  | fuel + 1, .blockEntry :: ts => do
    let (item, ts) ← readUnless fuel [.blockEntry, .blockEnd] true false ts
    let (items, ts) ← readBlockSequence fuel ts
    return (item :: items, ts)
  | _ + 1, .blockEnd :: ts => some ([], ts)
  | _, _ => none

/-- Reads the entries of a sequence at the indentation of its mapping. -/
def readBareSequence (fuel : Nat) (ts : List Token) : Option (List Node × List Token) :=
  match fuel, ts with
  | 0, _ => none
  | fuel + 1, .blockEntry :: ts => do
    let (item, ts) ← readUnless fuel [.blockEntry, .key, .value, .blockEnd] true false ts
    let (items, ts) ← readBareSequence fuel ts
    return (item :: items, ts)
  | _, ts => some ([], ts)

/-- Reads the entries of a block mapping. A key may lack its value. -/
def readBlockMapping (fuel : Nat) (ts : List Token) :
    Option (List (Node × Node) × List Token) :=
  match fuel, ts with
  | fuel + 1, .key :: ts => do
    let (key, ts) ← readUnless fuel [.key, .value, .blockEnd] true true ts
    let (value, ts) ← readValue fuel [.key, .value, .blockEnd] true ts
    let (entries, ts) ← readBlockMapping fuel ts
    return ((key, value) :: entries, ts)
  | _ + 1, .blockEnd :: ts => some ([], ts)
  | _, _ => none

/-- Reads a colon and a value, or nothing where no colon comes next. -/
def readValue (fuel : Nat) (ends : List Token) (inBlock : Bool) (ts : List Token) :
    Option (Node × List Token) :=
  match fuel, ts with
  | 0, _ => none
  | fuel + 1, .value :: ts => readUnless fuel ends inBlock inBlock ts
  | _, ts => some (empty, ts)

def readFlowSequence (fuel : Nat) (first : Bool) (ts : List Token) :
    Option (List Node × List Token) :=
  match fuel, ts with
  | 0, _ => none
  | _ + 1, .flowSequenceEnd :: ts => some ([], ts)
  | fuel + 1, ts => do
    match ← takeComma first ts with
    | .flowSequenceEnd :: ts => return ([], ts)
    | ts =>
      let (item, ts) ← readFlowItem fuel ts
      let (items, ts) ← readFlowSequence fuel false ts
      return (item :: items, ts)

/-- Reads an item between square brackets. A key alone there is a mapping of one entry; where
it has no node, the token after the key is passed over. -/
def readFlowItem (fuel : Nat) (ts : List Token) : Option (Node × List Token) :=
  match fuel, ts with
  | 0, _ => none
  | fuel + 1, .key :: ts => do
    let (key, ts) ←
      if isNext [.value, .flowEntry, .flowSequenceEnd] ts then some (empty, ts.tail)
      else read fuel false false ts
    let (value, ts) ← readValue fuel [.flowEntry, .flowSequenceEnd] false ts
    return (.mapping none [(key, value)], ts)
  | fuel + 1, ts => read fuel false false ts

/-- Reads the entries between braces. A node without a colon is a key without a value. -/
def readFlowMapping (fuel : Nat) (first : Bool) (ts : List Token) :
    Option (List (Node × Node) × List Token) :=
  match fuel, ts with
  | 0, _ => none
  | _ + 1, .flowMappingEnd :: ts => some ([], ts)
  | fuel + 1, ts => do
    match ← takeComma first ts with
    | .flowMappingEnd :: ts => return ([], ts)
    | ts =>
      let (entry, ts) ← readFlowEntry fuel ts
      let (entries, ts) ← readFlowMapping fuel false ts
      return (entry :: entries, ts)

def readFlowEntry (fuel : Nat) (ts : List Token) : Option ((Node × Node) × List Token) :=
  match fuel, ts with
  | 0, _ => none
  | fuel + 1, .key :: ts => do
    let (key, ts) ← readUnless fuel [.value, .flowEntry, .flowMappingEnd] false false ts
    let (value, ts) ← readValue fuel [.flowEntry, .flowMappingEnd] false ts
    return ((key, value), ts)
  | fuel + 1, ts => do
    let (key, ts) ← read fuel false false ts
    return ((key, empty), ts)

end

/-- Reads the node of the only document. -/
def readDocument (fuel : Nat) : List Token → Option (Node × List Token)
  | [] => some (empty, [])
  | .documentStart :: [] => some (empty, [])
  | .documentStart :: ts => readUnless fuel [.documentStart, .documentEnd] true false ts
  | ts => read fuel true false ts

/-- The node that tokens spell. After it only ends of the document may come. Every token takes
at most four calls. -/
def ofTokens? (ts : List Token) : Option Node := do
  let (node, rest) ← readDocument (4 * ts.length + 4) ts
  guard (rest.all (· == .documentEnd))
  return node

def ofSource? (source : String) : Option Node := do ofTokens? (← tokens source.toList)

end Node

end Builtins.Yaml
