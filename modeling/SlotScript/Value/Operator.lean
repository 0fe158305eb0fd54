import SlotScript.Value.Equality
import SlotScript.Value.Order

/-!
The operators of the language on values.
-/

namespace SlotScript

namespace Value

/-- Concatenation if an operand is a text, otherwise the sum. -/
def add (a b : Value) : Value :=
  if a.isText || b.isText then text (a.toText ++ b.toText) else number (a.toNumber + b.toNumber)

/-- The right operand if the left one is true, otherwise the left one. -/
def and (a b : Value) : Value := if a.toBoolean then b else a

/-- The left operand if it is true, otherwise the right one. -/
def or (a b : Value) : Value := if a.toBoolean then a else b

end Value

/-- The operators that need the values of both operands. -/
inductive BinaryOp where
  | add
  | sub
  | mul
  | div
  | mod
  | strictEq
  | strictNe
  | looseEq
  | looseNe
  | lt
  | gt
  | le
  | ge
deriving DecidableEq

namespace BinaryOp

def all : List BinaryOp :=
  [add, sub, mul, div, mod, strictEq, strictNe, looseEq, looseNe, lt, gt, le, ge]

def symbol : BinaryOp → String
  | add => "+"
  | sub => "-"
  | mul => "*"
  | div => "/"
  | mod => "%"
  | strictEq => "==="
  | strictNe => "!=="
  | looseEq => "=="
  | looseNe => "!="
  | lt => "<"
  | gt => ">"
  | le => "<="
  | ge => ">="

/-- The operator with this symbol. -/
def ofSymbol? (symbol : String) : Option BinaryOp := all.find? (·.symbol = symbol)

/-- The result of the operator on two values. -/
def apply (op : BinaryOp) (a b : Value) : Value :=
  match op with
  | add => a.add b
  | sub => .number (a.toNumber - b.toNumber)
  | mul => .number (a.toNumber * b.toNumber)
  | div => .number (a.toNumber / b.toNumber)
  | mod => .number (a.toNumber % b.toNumber)
  | strictEq => .boolean (a.strictEq b)
  | strictNe => .boolean (!a.strictEq b)
  | looseEq => .boolean (a.looseEq b)
  | looseNe => .boolean (!a.looseEq b)
  | lt => .boolean (a.lt b)
  | gt => .boolean (a.gt b)
  | le => .boolean (a.le b)
  | ge => .boolean (a.ge b)

/-- Operators give primitive values. -/
theorem handle?_apply (op : BinaryOp) (a b : Value) : (op.apply a b).handle? = none := by
  cases op with
  | add =>
    show (a.add b).handle? = none
    unfold Value.add
    split <;> rfl
  | _ => rfl

end BinaryOp

/-- The operators on one value. -/
inductive UnaryOp where
  | not
  | neg
deriving DecidableEq

namespace UnaryOp

def symbol : UnaryOp → String
  | not => "!"
  | neg => "-"

/-- The operator with this symbol. -/
def ofSymbol? (symbol : String) : Option UnaryOp := [not, neg].find? (·.symbol = symbol)

/-- The result of the operator on a value. -/
def apply (op : UnaryOp) (a : Value) : Value :=
  match op with
  | not => .boolean (!a.toBoolean)
  | neg => .number (-a.toNumber)

theorem handle?_apply (op : UnaryOp) (a : Value) : (op.apply a).handle? = none := by
  cases op <;> rfl

end UnaryOp

end SlotScript
