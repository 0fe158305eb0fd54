import SlotScript.Double.Basic

/-!
Decimals and doubles.

`Double.ofDecimal` reads a decimal as the nearest double. `Magnitude.shortest` goes back: among the
decimals that are read as the given magnitude it takes one with the fewest digits, of two such
neighbours the nearer, and the upper one where both are equally near.
-/

namespace SlotScript

/-- The decimal number `digits * 10 ^ exponent`. -/
structure Decimal where
  digits : Nat
  exponent : Int
deriving DecidableEq

namespace Decimal

/-- The same number with no trailing zero among its digits. -/
def normalize (d : Decimal) : Decimal :=
  if d.digits ≠ 0 ∧ d.digits % 10 = 0 then
    normalize ⟨d.digits / 10, d.exponent + 1⟩
  else d
termination_by d.digits
decreasing_by omega

/-- The decimal as a ratio of counts of units. -/
def ratio (d : Decimal) : Nat × Nat :=
  match d.exponent with
  | .ofNat e => (d.digits * Nat.pow 10 e * unitsPerOne, 1)
  | .negSucc e => (d.digits * unitsPerOne, Nat.pow 10 (e + 1))

end Decimal

/-- The double nearest to a decimal with the given sign. -/
def Double.ofDecimal (negative : Bool) (d : Decimal) : Double :=
  Double.round negative d.ratio.1 d.ratio.2

namespace Magnitude

/-- The decimal places down to which digits are looked at; one unit is more than `10 ^ -324`. -/
def finestPlace : Nat := 324

/-- Whether the decimal is read as this magnitude. -/
def IsReadFrom (m : Magnitude) (d : Decimal) : Prop :=
  Double.ofDecimal false d = .finite false m

instance (m : Magnitude) (d : Decimal) : Decidable (m.IsReadFrom d) :=
  inferInstanceAs (Decidable (_ = _))

/-- The magnitude as a whole number of `10 ^ -324`, rounded down. -/
def places (m : Magnitude) : Nat := m.units * Nat.pow 10 finestPlace / unitsPerOne

/-- The decimal that is read as `m` and lies next to `m` on the grid of multiples of
`10 ^ (drop - 324)`, if there is one. -/
def neighbour? (m : Magnitude) (drop : Nat) : Option Decimal :=
  let grid := Nat.pow 10 drop
  let exponent : Int := drop - finestPlace
  let low : Decimal := ⟨m.places / grid, exponent⟩
  let high : Decimal := ⟨m.places / grid + 1, exponent⟩
  -- twice the distance from zero, of `m` and of the point halfway between its neighbours
  let nearerLow := 2 * m.units * Nat.pow 10 finestPlace < (low.digits + high.digits) * grid * unitsPerOne
  if m.IsReadFrom low ∧ (nearerLow ∨ ¬ m.IsReadFrom high) then some low
  else if m.IsReadFrom high then some high
  else none

/-- The grids from the coarsest on which `m` is not below one step. -/
def grids (m : Magnitude) : List Nat :=
  (List.range (Nat.toDigits 10 m.places).length).reverse

/-- The shortest decimal that is read as `m`. -/
def shortest (m : Magnitude) : Decimal :=
  ((m.grids.findSome? m.neighbour?).getD ⟨m.places, -finestPlace⟩).normalize

end Magnitude

end SlotScript
