-- Binary floating-point numbers of sixty-four bits, and the nearest one to a decimal. All of
-- it is exact arithmetic on natural numbers.
namespace Builtins.Decimal

/-- A binary floating-point number. The rank of a finite one counts the magnitudes from zero
up, so it is the number's bits without the sign. -/
inductive Binary64 where
  | nan
  | infinite (negative : Bool)
  | finite (negative : Bool) (rank : Nat)
deriving DecidableEq

namespace Binary64

/-- How many ranks share one exponent. -/
def binade : Nat := Nat.pow 2 52

/-- The rank after the last finite one. -/
def rankLimit : Nat := 2047 * binade

/-- The significand of a rank: its magnitude in units in the last place. -/
def significand (rank : Nat) : Nat :=
  if rank < binade then rank else rank % binade + binade

/-- The exponent of a rank: the unit in the last place is two to this power. -/
def exponent (rank : Nat) : Int :=
  if rank < binade then -1074 else (rank / binade : Nat) - 1075

/-- Whether two numbers are equal as numbers. Here zero equals minus zero and what is not a
number equals itself. -/
def sameNumber : Binary64 → Binary64 → Bool
  | finite a m, finite b n => m == n && (a == b || m == 0)
  | x, y => x == y

/-- A quotient rounded to the nearest whole number, a half to the even one. -/
def roundHalfEven (num den : Nat) : Nat :=
  let q := num / den
  let r := num % den
  if 2 * r < den then q
  else if den < 2 * r then q + 1
  else q + q % 2

/-- The rank of the magnitude nearest to `num / den`. Beyond the finite numbers it is at least
`rankLimit`. -/
def nearestRank (num den : Nat) : Nat :=
  if num = 0 then 0
  else
    -- The quotient lies between two to the powers `size - 1` and `size + 1`.
    let size : Int := (Nat.log2 num : Int) - Nat.log2 den
    let scaled (e : Int) : Nat × Nat := (num * Nat.pow 2 (-e).toNat, den * Nat.pow 2 e.toNat)
    let low := max (size - 53) (-1074)
    let (n, d) := scaled low
    let e := if 2 * binade ≤ n / d then low + 1 else low
    let (n, d) := scaled e
    (e + 1074).toNat * binade + roundHalfEven n d

/-- The finite number nearest to `digits * 10 ^ power`, if there is one. -/
def ofDecimal? (negative : Bool) (digits : Nat) (power : Int) : Option Binary64 :=
  let width : Int := (Nat.toDigits 10 digits).length
  if digits = 0 ∨ width + power < -400 then some (.finite negative 0)
  else if 400 < width + power then none
  else
    let rank := nearestRank (digits * Nat.pow 10 power.toNat) (Nat.pow 10 (-power).toNat)
    if rank < rankLimit then some (.finite negative rank) else none

end Binary64

/-- The digits of a text in a base, as a number; a text without digits has none. -/
def digitsValue? (base : Nat) (digit? : Char → Option Nat) (cs : List Char) : Option Nat :=
  if cs.isEmpty then none
  else cs.foldlM (fun n c => do
    let d ← digit? c
    if d < base then some (n * base + d) else none) 0

def decimalDigit? (c : Char) : Option Nat := if c.isDigit then some (c.toNat - 0x30) else none

/-- The power of ten that the end of a decimal gives: nothing, or `e` and an integer. -/
def exponentPart? : List Char → Option Int
  | [] => some 0
  | c :: rest =>
    if c == 'e' || c == 'E' then
      match rest with
      | '-' :: ds => (digitsValue? 10 decimalDigit? ds).map fun n => -n
      | '+' :: ds => (digitsValue? 10 decimalDigit? ds).map fun n => n
      | ds => (digitsValue? 10 decimalDigit? ds).map fun n => n
    else none

/-- The finite number that a decimal without a sign is read as: digits with a point anywhere
among them or none, and perhaps a power of ten. -/
def readUnsigned? (negative : Bool) (cs : List Char) : Option Binary64 := do
  let whole := cs.takeWhile Char.isDigit
  let rest := cs.dropWhile Char.isDigit
  let (fraction, rest) :=
    match rest with
    | '.' :: rest => (rest.takeWhile Char.isDigit, rest.dropWhile Char.isDigit)
    | rest => ([], rest)
  let digits ← digitsValue? 10 decimalDigit? (whole ++ fraction)
  Binary64.ofDecimal? negative digits ((← exponentPart? rest) - fraction.length)

/-- The finite number that a decimal is read as, with one sign or none. -/
def read? : List Char → Option Binary64
  | '-' :: cs => readUnsigned? true cs
  | '+' :: cs => readUnsigned? false cs
  | cs => readUnsigned? false cs

end Builtins.Decimal
