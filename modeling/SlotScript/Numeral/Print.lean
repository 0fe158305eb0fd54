import SlotScript.Double.Decimal

/-!
The numeral of a number: its shortest decimal, in positional or in exponent form.
-/

namespace SlotScript

namespace Numeral

/-- The exponents of the leading digit for which a numeral is positional. -/
structure Form where
  leastPositional : Int
  greatestPositional : Int

/-- Magnitudes from `10 ^ -6` up to but not including `10 ^ 21` are positional. -/
def Form.default : Form := ⟨-6, 20⟩

/-- Digits with a point after `whole` of them, filled up with zeros to reach that point. -/
def positional (digits : List Char) (whole : Nat) : List Char :=
  let fraction := digits.drop whole
  digits.take whole ++ List.replicate (whole - digits.length) '0' ++
    (if fraction = [] then [] else '.' :: fraction)

/-- Exponent form: one digit before the point, and an exponent that always has a sign. -/
def scientific (digits : List Char) (exponent : Int) : List Char :=
  positional digits 1 ++ 'e' :: (if exponent < 0 then '-' else '+') ::
    Nat.toDigits 10 exponent.natAbs

/-- The numeral of a decimal without trailing zeros. -/
def ofDecimal (form : Form) (d : Decimal) : List Char :=
  let digits := Nat.toDigits 10 d.digits
  let exponent := d.exponent + digits.length - 1
  if form.leastPositional ≤ exponent ∧ exponent ≤ form.greatestPositional then
    if exponent < 0 then
      '0' :: '.' :: (List.replicate (-exponent - 1).toNat '0' ++ digits)
    else positional digits (exponent.toNat + 1)
  else scientific digits exponent

end Numeral

/-- The text of a number. Both zeros are `0`. -/
def Double.toText : Double → String
  | nan => "NaN"
  | infinity false => "Infinity"
  | infinity true => "-Infinity"
  | finite negative m =>
    if m.units = 0 then "0"
    else
      let numeral := Numeral.ofDecimal .default m.shortest
      String.ofList (if negative then '-' :: numeral else numeral)

end SlotScript
