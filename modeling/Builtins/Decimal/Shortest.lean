-- The shortest decimal of a binary floating-point number: the fewest digits that read back to
-- it, and of those the nearest. Numbers from 1e-5 up to 1e16 are written with a point.
import Builtins.Decimal.Binary64

namespace Builtins.Decimal

/-- A decimal in scientific form: `digits * 10 ^ power`. -/
structure Scientific where
  digits : Nat
  power : Int

namespace Binary64

/-- The multiple of `10 ^ power` that reads back to a rank and is nearest to it, if one does.
Of all the multiples only the two next to the number matter. A tie goes to the even one. -/
def onGrid? (rank : Nat) (power : Int) : Option Nat :=
  let m := significand rank
  -- In quarters of the unit in the last place; below a power of two the next number is nearer.
  let low := if m = binade ∧ binade < rank then 4 * m - 1 else 4 * m - 2
  let high := 4 * m + 2
  let e := exponent rank - 2
  let grid := Nat.pow 10 power.toNat * Nat.pow 2 (-e).toNat
  let unit := Nat.pow 2 e.toNat * Nat.pow 10 (-power).toNat
  let readsBack (d : Nat) : Bool :=
    if m % 2 = 0 then low * unit ≤ d * grid && d * grid ≤ high * unit
    else low * unit < d * grid && d * grid < high * unit
  let below := 4 * m * unit / grid
  let above := below + 1
  match readsBack below, readsBack above with
  | true, false => some below
  | false, true => some above
  | false, false => none
  | true, true =>
    let toBelow := 4 * m * unit - below * grid
    let toAbove := above * grid - 4 * m * unit
    if toBelow < toAbove ∨ (toBelow = toAbove ∧ below % 2 = 0) then some below else some above

/-- The shortest decimal of a rank: the first hit from the coarsest grid to the finest. -/
def shortest (rank : Nat) : Scientific :=
  let powers := (List.range 652).map fun (i : Nat) => (309 : Int) - i
  (powers.findSome? fun power => (onGrid? rank power).map (⟨·, power⟩)).getD ⟨0, 0⟩

end Binary64

/-- A decimal as text. It has a point or an exponent, whichever it needs. -/
def Scientific.render (d : Scientific) : String :=
  let digits := Nat.toDigits 10 d.digits
  let point : Int := digits.length + d.power
  let text : List Char :=
    if 0 ≤ d.power ∧ point ≤ 16 then digits ++ List.replicate d.power.toNat '0' ++ ['.', '0']
    else if 0 < point ∧ point ≤ 16 then
      digits.take point.toNat ++ '.' :: digits.drop point.toNat
    else if -5 < point ∧ point ≤ 0 then
      '0' :: '.' :: (List.replicate (-point).toNat '0' ++ digits)
    else
      let exponent := 'e' :: (toString (point - 1)).toList
      match digits with
      | [digit] => digit :: exponent
      | digit :: more => digit :: '.' :: (more ++ exponent)
      | [] => exponent
  String.ofList text

def Binary64.render : Binary64 → String
  | nan => ".nan"
  | infinite negative => if negative then "-.inf" else ".inf"
  | finite negative rank =>
    (if negative then "-" else "") ++
      (if rank = 0 then "0.0" else (shortest rank).render)

end Builtins.Decimal
