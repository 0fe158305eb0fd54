import SlotScript.Double.Arithmetic
import SlotScript.Double.Decimal
import SlotScript.Text.Blank

/-!
The number that a text denotes.

A numeral is, between blanks, nothing at all, a name of infinity, an integer with a radix mark, or a
decimal with an optional fraction and exponent. Every other text denotes not-a-number.
-/

namespace SlotScript

namespace Numeral

/-! ### Infinity -/

/-- Reads `Infinity` with an optional sign. -/
def infinity? (cs : List Char) : Option Double :=
  if cs = "Infinity".toList ∨ cs = "+Infinity".toList then some (.infinity false)
  else if cs = "-Infinity".toList then some (.infinity true)
  else none

/-! ### Integers with a radix mark -/

/-- The radix that a mark after the leading zero stands for. -/
def radixOfMark? (mark : Char) : Option Nat :=
  if mark = 'x' ∨ mark = 'X' then some 16
  else if mark = 'o' ∨ mark = 'O' then some 8
  else if mark = 'b' ∨ mark = 'B' then some 2
  else none

/-- The value of a digit, letters counting on from ten. -/
def digitValue? (radix : Nat) (c : Char) : Option Nat :=
  let value :=
    if '0' ≤ c ∧ c ≤ '9' then c.toNat - '0'.toNat
    else if 'a' ≤ c ∧ c ≤ 'f' then c.toNat - 'a'.toNat + 10
    else if 'A' ≤ c ∧ c ≤ 'F' then c.toNat - 'A'.toNat + 10
    else radix
  if value < radix then some value else none

/-- The number that digits denote, most significant first, rounded after each digit. -/
def ofDigits (radix : Nat) (digits : List Nat) : Double :=
  digits.foldl (fun n digit => n.mulAdd (.ofNat radix) (.ofNat digit)) .zero

/-- Reads an integer with a radix mark and at least one digit. -/
def radixInteger? : List Char → Option Double
  | '0' :: mark :: cs => do
    let radix ← radixOfMark? mark
    let digits ← cs.mapM (digitValue? radix)
    if digits = [] then none else some (ofDigits radix digits)
  | _ => none

/-! ### Decimals -/

/-- Splits off an optional sign; `true` stands for minus. -/
def splitSign : List Char → Bool × List Char
  | '-' :: cs => (true, cs)
  | '+' :: cs => (false, cs)
  | cs => (false, cs)

/-- The size at which an exponent has certainly left the range of doubles. -/
def exponentCutoff : Nat := 0x10000

/-- The value of the digits of an exponent; digits after the cutoff are not taken in. -/
def exponentValue (digits : List Char) : Nat :=
  digits.foldl (fun e c => if e < exponentCutoff then 10 * e + (c.toNat - '0'.toNat) else e) 0

/-- Reads what follows the digits of a decimal: nothing, or an exponent. -/
def exponent? : List Char → Option Int
  | [] => some 0
  | mark :: cs =>
    let (negative, digits) := splitSign cs
    if (mark = 'e' ∨ mark = 'E') ∧ digits ≠ [] ∧ digits.all Char.isDigit then
      some (Double.signed negative (exponentValue digits))
    else none

/-- The digits after a point, and what follows them. -/
def splitFraction : List Char → List Char × List Char
  | '.' :: cs => (cs.takeWhile Char.isDigit, cs.dropWhile Char.isDigit)
  | cs => ([], cs)

/-- Reads a decimal without a sign. -/
def decimal? (cs : List Char) : Option Decimal :=
  let whole := cs.takeWhile Char.isDigit
  let (fraction, rest) := splitFraction (cs.dropWhile Char.isDigit)
  if whole = [] ∧ fraction = [] then none
  else do
    let exponent ← exponent? rest
    return ⟨Nat.ofDigitChars 10 (whole ++ fraction) 0, exponent - fraction.length⟩

/-- Reads a decimal with an optional sign, as the nearest double. -/
def signedDecimal? (cs : List Char) : Option Double :=
  let (negative, unsigned) := splitSign cs
  (decimal? unsigned).map (Double.ofDecimal negative)

/-! ### Numerals -/

/-- Reads a numeral without blanks around it. The empty one is zero. -/
def number? (cs : List Char) : Option Double :=
  if cs = [] then some .zero
  else infinity? cs <|> radixInteger? cs <|> signedDecimal? cs

end Numeral

/-- The number that a text denotes. -/
def Double.ofText (text : String) : Double :=
  (Numeral.number? (Text.trim text.toList)).getD .nan

end SlotScript
