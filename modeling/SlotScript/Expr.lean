import SlotScript.Value.Operator

/-!
Expressions.
-/

namespace SlotScript

/-- An expression. -/
inductive Expr where
  | literal (value : Value)
  | name (name : String)
  /-- The property of `base` with a fixed name. -/
  | member (base : Expr) (property : String)
  /-- The property of `base` with a computed name. -/
  | index (base key : Expr)
  | object (members : List (String × Expr))
  | array (elements : List Expr)
  | function (parameters : List String) (code : Nat)
  | unary (op : UnaryOp) (operand : Expr)
  | binary (op : BinaryOp) (left right : Expr)
  /-- The left operand unless it is true, then the right one. -/
  | and (left right : Expr)
  /-- The left operand if it is true, otherwise the right one. -/
  | or (left right : Expr)
  | call (callee : String) (arguments : List Expr)

namespace Expr

/-- Whether the expression can stand on the left of an assignment. -/
def isAssignable : Expr → Bool
  | name _ | member _ _ | index _ _ => true
  | _ => false

/-! ### Equality -/

mutual

/-- Whether two expressions have the same structure, with literals compared strictly. -/
def same : Expr → Expr → Bool
  | literal v, literal w => v.strictEq w
  | name x, name y => x = y
  | member e p, member f q => same e f && p = q
  | index e k, index f l => same e f && same k l
  | object es, object fs => sameMembers es fs
  | array es, array fs => sameAll es fs
  | function ps c, function qs d => ps = qs && c = d
  | unary o e, unary p f => o = p && same e f
  | binary o e e', binary p f f' => o = p && same e f && same e' f'
  | and e e', and f f' | or e e', or f f' => same e f && same e' f'
  | call c es, call d fs => c = d && sameAll es fs
  | _, _ => false

/-- Equality of lists of expressions. -/
def sameAll : List Expr → List Expr → Bool
  | [], [] => true
  | e :: es, f :: fs => same e f && sameAll es fs
  | _, _ => false

/-- Equality of lists of named expressions. -/
def sameMembers : List (String × Expr) → List (String × Expr) → Bool
  | [], [] => true
  | (x, e) :: es, (y, f) :: fs => x = y && same e f && sameMembers es fs
  | _, _ => false

end

end Expr

end SlotScript
