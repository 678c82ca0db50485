-- What the text of a scalar means: nothing, a truth value, an integer, a floating-point number
-- or itself.
import Builtins.Yaml.Character
import Builtins.Decimal.Binary64

namespace Builtins.Yaml

/-- The meaning of a scalar. -/
inductive Scalar where
  | null
  | bool (b : Bool)
  | int (n : Int)
  | float (x : Decimal.Binary64)
  | text (s : String)
deriving DecidableEq

namespace Scalar

/-- Whether a text is a word for nothing. -/
def isNull (s : String) : Bool := s ∈ ["null", "Null", "NULL", "~"]

def bool? (s : String) : Option Bool :=
  if s ∈ ["true", "True", "TRUE"] then some true
  else if s ∈ ["false", "False", "FALSE"] then some false
  else none

/-- Whether a text is all digits, perhaps with a sign, but starts with a zero that other
digits follow. Such a text is no number. -/
def isPadded (cs : List Char) : Bool :=
  let unsigned : List Char :=
    match cs with
    | '-' :: cs | '+' :: cs => cs
    | cs => cs
  match unsigned with
  | '0' :: d :: ds => (d :: ds).all Char.isDigit
  | _ => false

/-- The number that digits after an optional base mark give. -/
def natural? : List Char → Option Nat
  | '0' :: 'x' :: ds => Decimal.digitsValue? 16 hexValue? ds
  | '0' :: 'o' :: ds => Decimal.digitsValue? 8 hexValue? ds
  | '0' :: 'b' :: ds => Decimal.digitsValue? 2 hexValue? ds
  | ds => Decimal.digitsValue? 10 hexValue? ds

/-- The integer that a text is, however large. -/
def integer? (cs : List Char) : Option Int :=
  if isPadded cs then none
  else
    match cs with
    | '-' :: cs => (natural? cs).map fun n => -n
    | '+' :: cs => (natural? cs).map fun n => n
    | cs => (natural? cs).map fun n => n

/-- An integer as a scalar holds it: from `-2^63` up to `2^64`. Up to `2^128` in size there is
no scalar for it (`some none`), and beyond that the text is no integer (`none`). -/
def ofInteger? (n : Int) : Option (Option Scalar) :=
  if -Int.pow 2 63 ≤ n ∧ n < Int.pow 2 64 then some (some (int n))
  else if -Int.pow 2 127 ≤ n ∧ n < Int.pow 2 128 then some none
  else none

/-- The number that a text is, infinities included. -/
def float? (s : String) : Option Decimal.Binary64 :=
  if s ∈ [".inf", ".Inf", ".INF", "+.inf", "+.Inf", "+.INF"] then some (.infinite false)
  else if s ∈ ["-.inf", "-.Inf", "-.INF"] then some (.infinite true)
  else if s ∈ [".nan", ".NaN", ".NAN"] then some .nan
  else Decimal.read? s.toList

/-- What a text is that is not an integer. -/
def ofFraction (s : String) : Scalar :=
  if isPadded s.toList then text s
  else
    match float? s with
    | some x => float x
    | none => text s

/-- The meaning of a plain scalar without a tag of YAML itself. An integer that fits nowhere
has none. -/
def ofPlain? (s : String) : Option Scalar :=
  if s.isEmpty || isNull s then some null
  else
    match bool? s with
    | some b => some (bool b)
    | none =>
      match (integer? s.toList).bind ofInteger? with
      | some number => number
      | none => some (ofFraction s)

/-- The meaning of a text that is said to be an integer. -/
def ofInteger (s : String) : Option Scalar := ((integer? s.toList).bind ofInteger?).join

end Scalar

end Builtins.Yaml
