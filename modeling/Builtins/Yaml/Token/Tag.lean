-- Tags as they are written. `!name` is a name of its own, `!!name` one of YAML itself, and
-- `!<name>` gives the name as it is. A percent sign and two hexadecimal digits stand for an
-- octet of UTF-8.
import Builtins.Yaml.Character
import Builtins.Yaml.Tag

namespace Builtins.Yaml

/-- How many octets of a sequence are still to come after an octet, where `missing` were before
it. The first octet of a sequence says how many follow, and all others are marked as such. Which
character they make up does not matter here. -/
def missingAfter? (missing octet : Nat) : Option Nat :=
  match missing with
  | missing + 1 => if octet / 0x40 = 2 then some missing else none
  | 0 =>
    if octet < 0x80 then some 0
    else if octet / 0x20 = 6 then some 1
    else if octet / 0x10 = 14 then some 2
    else if octet / 0x08 = 30 then some 3
    else none

/-- The longest run of tag characters, as octets, and what follows, where `missing` octets of a
sequence are still to come. Between angle brackets commas and square brackets are tag characters
as well. -/
def tagRun (inAngles : Bool) (missing : Nat) : List Char → Option (List UInt8 × List Char)
  | [] => if missing = 0 then some ([], []) else none
  | '%' :: high :: low :: rest => do
    let octet := (← hexValue? high) * 16 + (← hexValue? low)
    let (octets, rest) ← tagRun inAngles (← missingAfter? missing octet) rest
    return (octet.toUInt8 :: octets, rest)
  | c :: rest =>
    if c == '%' || missing != 0 then none
    else if isTagChar c || (inAngles && c ∈ [',', '[', ']']) then do
      let (octets, rest) ← tagRun inAngles 0 rest
      return (c.toNat.toUInt8 :: octets, rest)
    else some ([], c :: rest)

/-- A run of tag characters that is not empty. -/
def tagRun1 (inAngles : Bool) (cs : List Char) : Option (List UInt8 × List Char) := do
  let (octets, rest) ← tagRun inAngles 0 cs
  if octets.isEmpty then none else return (octets, rest)

/-- Reads the rest of a tag after its exclamation mark. No other handle than `!!` is known. -/
def tagOctets : List Char → Option (List UInt8 × List Char)
  | '<' :: rest => do
    match ← tagRun1 true rest with
    | (octets, '>' :: rest) => return (octets, rest)
    | _ => none
  | '!' :: rest => do
    let (octets, rest) ← tagRun1 false rest
    return (coreTag.toUTF8.data.toList ++ octets, rest)
  | cs =>
    if (cs.dropWhile isWordChar).head? == some '!' then none
    else do
      let (octets, rest) ← tagRun false 0 cs
      return (0x21 :: octets, rest)

end Builtins.Yaml
