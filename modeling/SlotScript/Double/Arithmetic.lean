import SlotScript.Double.Basic

/-!
Arithmetic on doubles: each operation is exact on units and rounds once.
-/

namespace SlotScript

namespace Double

/-- The number with the opposite sign. -/
def neg : Double → Double
  | nan => nan
  | infinity negative => infinity (!negative)
  | finite negative m => finite (!negative) m

instance : Neg Double := ⟨neg⟩

/-- The double nearest to `num / den` units, where a zero numerator is negative only if `zeroSign`. -/
def roundSigned (zeroSign : Bool) (num : Int) (den : Nat) : Double :=
  if num = 0 then round zeroSign 0 1 else round (num < 0) num.natAbs den

/-- The sum. Two opposite numbers give the positive zero. -/
def add : Double → Double → Double
  | nan, _ | _, nan => nan
  | infinity a, infinity b => if a = b then infinity a else nan
  | infinity a, finite _ _ => infinity a
  | finite _ _, infinity b => infinity b
  | finite a m, finite b n => roundSigned (a && b) (signed a m.units + signed b n.units) 1

instance : Add Double := ⟨add⟩

/-- The difference. -/
def sub (x y : Double) : Double := x + -y

instance : Sub Double := ⟨sub⟩

/-- The product. An infinity times a zero is not a number. -/
def mul : Double → Double → Double
  | nan, _ | _, nan => nan
  | infinity a, infinity b => infinity (a ^^ b)
  | infinity a, finite b m | finite b m, infinity a =>
    if m.units = 0 then nan else infinity (a ^^ b)
  | finite a m, finite b n => round (a ^^ b) (m.units * n.units) unitsPerOne

instance : Mul Double := ⟨mul⟩

/-- The quotient. A nonzero number over a zero is infinite, a zero over a zero is not a number. -/
def div : Double → Double → Double
  | nan, _ | _, nan => nan
  | infinity _, infinity _ => nan
  | infinity a, finite b _ => infinity (a ^^ b)
  | finite a _, infinity b => round (a ^^ b) 0 1
  | finite a m, finite b n =>
    if n.units = 0 then if m.units = 0 then nan else infinity (a ^^ b)
    else round (a ^^ b) (m.units * unitsPerOne) n.units

instance : Div Double := ⟨div⟩

/-- The remainder of division toward zero, exact and with the sign of the dividend. -/
def mod : Double → Double → Double
  | nan, _ | _, nan => nan
  | infinity _, _ => nan
  | finite a m, infinity _ => finite a m
  | finite a m, finite _ n => if n.units = 0 then nan else round a (m.units % n.units) 1

instance : Mod Double := ⟨mod⟩

/-- The product of `x` and `y` plus `z`, rounded once. -/
def mulAdd : Double → Double → Double → Double
  | finite a m, finite b n, finite c k =>
    roundSigned ((a ^^ b) && c)
      (signed (a ^^ b) (m.units * n.units) + signed c (k.units * unitsPerOne)) unitsPerOne
  | finite _ _, finite _ _, z => z
  | x, y, z => x * y + z

end Double

end SlotScript
