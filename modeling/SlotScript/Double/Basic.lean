/-!
Double-precision numbers, exactly.

A finite magnitude is a whole number of *units*, one unit being the least positive double `2 ^ -1074`.
A count of units belongs to a double when it has at most 53 significant bits and stays below
`2 ^ 2098`, the count for `2 ^ 1024`. All arithmetic on doubles is exact arithmetic on units followed
by one call of `Double.round`, which goes to the nearest double and to the even one on a tie.
-/

namespace SlotScript

/-- The number of units in `1`. -/
def unitsPerOne : Nat := Nat.pow 2 1074

/-- The count of units at which a magnitude overflows. -/
def unitLimit : Nat := Nat.pow 2 2098

/-- The exponent of the grid on which a double with this many units lies: its 53 leading bits end at
this binary digit, and no double is finer than one unit. -/
def gridExponent (units : Nat) : Nat := units.log2 - 52

/-- The distance, in units, between neighbouring doubles from this many units on upward. -/
def gridStep (units : Nat) : Nat := Nat.pow 2 (gridExponent units)

/-- A count of units that some finite double has. -/
def Representable (units : Nat) : Prop :=
  units % gridStep units = 0 ∧ units < unitLimit

instance (units : Nat) : Decidable (Representable units) :=
  inferInstanceAs (Decidable (_ ∧ _))

/-- The absolute value of a finite double. -/
@[ext] structure Magnitude where
  /-- The value as a multiple of `2 ^ -1074`. -/
  units : Nat
  /-- The value is exact in double precision. -/
  representable : Representable units
deriving DecidableEq

/-- A double-precision number. The two zeros differ in `negative`; there is one not-a-number. -/
inductive Double where
  | nan
  | infinity (negative : Bool)
  | finite (negative : Bool) (magnitude : Magnitude)
deriving DecidableEq

/-! ### Rounding -/

/-- The natural number nearest to `num / den`, the even one on a tie. -/
def roundHalfEven (num den : Nat) : Nat :=
  let q := num / den
  let twice := 2 * (num % den)
  if twice < den then q else if den < twice then q + 1 else q + q % 2

/-- The multiple of the grid nearest to `num / den` units, with no upper limit. -/
def nearestUnits (num den : Nat) : Nat :=
  let step := gridStep (num / den)
  roundHalfEven num (den * step) * step

theorem roundHalfEven_le (num den : Nat) : roundHalfEven num den ≤ num / den + 1 := by
  simp only [roundHalfEven]
  split
  · omega
  · split <;> omega

theorem lt_gridStep (n : Nat) : n < Nat.pow 2 53 * gridStep n := by
  simp only [gridStep, Nat.pow_eq]
  have : n < 2 ^ (n.log2 + 1) := Nat.lt_log2_self
  have : 2 ^ (n.log2 + 1) ≤ 2 ^ (53 + gridExponent n) :=
    Nat.pow_le_pow_right (by omega) (by simp only [gridExponent]; omega)
  rw [← Nat.pow_add]
  omega

/-- Rounding to the grid leaves a significand of 53 bits, or the next power of two. -/
theorem roundHalfEven_gridStep_le (num den : Nat) :
    roundHalfEven num (den * gridStep (num / den)) ≤ Nat.pow 2 53 := by
  have := roundHalfEven_le num (den * gridStep (num / den))
  rw [← Nat.div_div_eq_div_mul] at this
  have : num / den / gridStep (num / den) < Nat.pow 2 53 :=
    Nat.div_lt_of_lt_mul (by rw [Nat.mul_comm]; exact lt_gridStep _)
  omega

/-- The grid of a significand of 53 bits is no coarser than the place of its last bit. -/
theorem gridExponent_mul_two_pow_le {m s : Nat} (h : m < Nat.pow 2 53) :
    gridExponent (m * Nat.pow 2 s) ≤ s := by
  simp only [Nat.pow_eq] at h ⊢
  by_cases h0 : m * 2 ^ s = 0
  · simp [gridExponent, h0]
  · have : m * 2 ^ s < 2 ^ (53 + s) := by
      rw [Nat.pow_add]; exact Nat.mul_lt_mul_of_pos_right h (Nat.two_pow_pos s)
    have := (Nat.log2_lt h0).2 this
    simp only [gridExponent]; omega

/-- A significand of 53 bits, or the next power of two, lies on the grid of its magnitude. -/
theorem mod_gridStep_eq_zero {m s : Nat} (h : m ≤ Nat.pow 2 53) :
    m * Nat.pow 2 s % gridStep (m * Nat.pow 2 s) = 0 := by
  simp only [gridStep]
  by_cases h' : m < Nat.pow 2 53
  · exact Nat.mod_eq_zero_of_dvd
      (Nat.dvd_mul_left_of_dvd (Nat.pow_dvd_pow 2 (gridExponent_mul_two_pow_le h')) m)
  · have : m = Nat.pow 2 53 := by omega
    simp only [this, Nat.pow_eq, ← Nat.pow_add]
    refine Nat.mod_eq_zero_of_dvd (Nat.pow_dvd_pow 2 ?_)
    simp only [gridExponent, Nat.log2_two_pow]; omega

theorem nearestUnits_mod_eq_zero (num den : Nat) :
    nearestUnits num den % gridStep (nearestUnits num den) = 0 :=
  mod_gridStep_eq_zero (roundHalfEven_gridStep_le num den)

namespace Double

/-- The double nearest to `num / den` units with the given sign; an infinity where that overflows. -/
def round (negative : Bool) (num den : Nat) : Double :=
  if h : nearestUnits num den < unitLimit then
    finite negative ⟨nearestUnits num den, nearestUnits_mod_eq_zero num den, h⟩
  else infinity negative

/-- The double nearest to a natural number. -/
def ofNat (n : Nat) : Double := round false (n * unitsPerOne) 1

/-- The positive zero. -/
def zero : Double := round false 0 1

/-- A count of units with a sign. -/
def signed (negative : Bool) (units : Nat) : Int := if negative then -units else units

/-- The number as a signed count of units. An infinity stands just outside the finite numbers, so
positions are ordered like the numbers. -/
def position : Double → Option Int
  | nan => none
  | infinity negative => some (signed negative unitLimit)
  | finite negative m => some (signed negative m.units)

/-- Whether the number is a zero of either sign. -/
def isZero (x : Double) : Bool := x.position = some 0

/-- The natural number equal to `x`, if there is one. -/
def toNat? : Double → Option Nat
  | finite negative m =>
    if m.units % unitsPerOne = 0 ∧ (negative = false ∨ m.units = 0) then
      some (m.units / unitsPerOne)
    else none
  | _ => none

/-! ### Comparison -/

/-- The order of two numbers; the zeros are equal, and not-a-number is incomparable. -/
def compare? (x y : Double) : Option Ordering := do
  return compare (← x.position) (← y.position)

/-- Numeric equality: the zeros are equal, and not-a-number differs from itself. -/
def numEq (x y : Double) : Bool := x.compare? y = some .eq

/-- Equality that also takes not-a-number as equal to itself. -/
def same (x y : Double) : Bool := x.position = y.position

/-! ### Interchange format -/

/-- The sign bit of the 64-bit form. -/
def signBit (negative : Bool) : UInt64 := if negative then 0x8000000000000000 else 0

/-- The 64-bit interchange form; not-a-number is the quiet one without payload. The leading bit of a
normal significand adds one to the exponent field, which counts grids from one. -/
def toBits : Double → UInt64
  | nan => 0x7ff8000000000000
  | infinity negative => signBit negative ||| 0x7ff0000000000000
  | finite negative m =>
    let k := gridExponent m.units
    signBit negative ||| (UInt64.ofNat k <<< 52 + UInt64.ofNat (m.units >>> k))

/-- The number with this 64-bit interchange form. -/
def ofBits (bits : UInt64) : Double :=
  let negative := bits >>> 63 = 1
  let exponent := ((bits >>> 52) &&& 0x7ff).toNat
  let fraction := (bits &&& 0xfffffffffffff).toNat
  if exponent = 0x7ff then
    if fraction = 0 then infinity negative else nan
  else if exponent = 0 then round negative fraction 1
  else round negative ((Nat.pow 2 52 + fraction) * Nat.pow 2 (exponent - 1)) 1

end Double

end SlotScript
