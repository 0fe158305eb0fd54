import SlotScript.Value.Basic

/-!
The two equalities of the language.
-/

namespace SlotScript.Value

/-- Equality without conversion. Not-a-number equals itself, the zeros are equal, and handles are
equal when they name the same slot in the same way. -/
def strictEq : Value → Value → Bool
  | number x, number y => x.same y
  | a, b => a = b

/-- A truth value as a number; every other value as it is. -/
def withoutBoolean : Value → Value
  | boolean b => number (boolean b).toNumber
  | v => v

/-- Equality up to conversion. Values of one kind are compared strictly, `undefined` and `null` equal
only each other, truth values count as numbers, and a text equals the number that it denotes. -/
def looseEq (a b : Value) : Bool :=
  if a.kind = b.kind then a.strictEq b
  else if a.isNullish || b.isNullish then a.isNullish && b.isNullish
  else
    match a.withoutBoolean, b.withoutBoolean with
    | number x, number y => x.same y
    | number x, text s | text s, number x => x.numEq (.ofText s)
    | _, _ => false

end SlotScript.Value
