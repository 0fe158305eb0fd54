import SlotScript.Expr
import SlotScript.Intrinsic
import SlotScript.Machine.Basic

/-!
Evaluation of expressions.
-/

namespace SlotScript

/-- The names that stand for a value everywhere. A binding cannot hide them. -/
def constant? (name : String) : Option Value :=
  if name = "undefined" then some .undefined
  else if name = "NaN" then some (.number .nan)
  else if name = "Infinity" then some (.number (.infinity false))
  else none

theorem handle?_of_constant? {name : String} {value : Value} (h : constant? name = some value) :
    value.handle? = none := by
  unfold constant? at h
  split at h
  · cases h; rfl
  · split at h
    · cases h; rfl
    · split at h
      · cases h; rfl
      · cases h

namespace MachineM

/-- Runs an intrinsic. -/
def callIntrinsic : Intrinsic → MachineM Value
  | .liveSlots => return .number (.ofNat (← get).arena.live)
  | .totalAllocations => return .number (.ofNat (← get).arena.total)
  | .collect => do
    let report ← modifyGet Machine.collect
    return .number (.ofNat report.freed)

mutual

/-- Evaluates an expression. Operands are evaluated from left to right. -/
def eval (e : Expr) : MachineM Outcome := releasing <|
  match e with
  | .literal value => return .fresh value
  | .name name =>
    match constant? name with
    | some value => return .fresh value
    | none => return .aliased (← lookup name)
  | .member base property => do
    let base ← eval base >>= resolve
    checkBase base property
    reading (·.getProperty base property)
  | .index base key => do
    let base ← eval base >>= resolve
    holdValue base
    let key ← eval key >>= resolve
    checkBase base key.toText
    reading (·.getProperty base key.toText)
  | .object members => do
    let members ← evalMembers members
    return .minted (← onArena (.build (.object members)))
  | .array elements => do
    let elements ← evalElements elements
    return .minted (← onArena (.build (.array elements)))
  | .function parameters code =>
    return .minted (← onArena (.build (.function parameters code globalScope)))
  | .unary op operand => do
    let value ← eval operand >>= resolve
    return .fresh (op.apply value)
  | .binary op left right => do
    let left ← eval left >>= resolve
    holdValue left
    let right ← eval right >>= resolve
    return .fresh (op.apply left right)
  | .and left right => do
    let outcome ← eval left
    if (← resolve outcome).toBoolean then eval right else return outcome
  | .or left right => do
    let outcome ← eval left
    if (← resolve outcome).toBoolean then return outcome else eval right
  | .call callee arguments =>
    match Intrinsic.ofName? callee with
    | none => throw (.unknownIntrinsic callee)
    | some intrinsic => do
      evalArguments arguments
      return .fresh (← callIntrinsic intrinsic)

/-- Evaluates the members of an object and holds their outcomes. -/
def evalMembers : List (String × Expr) → MachineM (List (String × Outcome))
  | [] => return []
  | (name, e) :: rest => do
    let outcome ← eval e
    hold outcome
    return (name, outcome) :: (← evalMembers rest)

/-- Evaluates the elements of an array and holds their outcomes. -/
def evalElements : List Expr → MachineM (List Outcome)
  | [] => return []
  | e :: rest => do
    let outcome ← eval e
    hold outcome
    return outcome :: (← evalElements rest)

/-- Evaluates arguments for their effects. -/
def evalArguments : List Expr → MachineM Unit
  | [] => return ()
  | e :: rest => do
    let _ ← eval e
    evalArguments rest

end

theorem eval_literal (value : Value) : eval (.literal value) = releasing (return .fresh value) := by
  rw [eval]

/-- The members of an object are evaluated as elements are. -/
theorem evalMembers_eq_map (members : List (String × Expr)) :
    evalMembers members = (members.map (·.1)).zip <$> evalElements (members.map (·.2)) := by
  induction members with
  | nil => rfl
  | cons member rest ih =>
    simp only [evalMembers, evalElements, List.map_cons, ih, map_eq_pure_bind, bind_assoc, pure_bind,
      List.zip_cons_cons]

/-- Evaluates an expression to its value. -/
def evalValue (e : Expr) : MachineM Value := eval e >>= resolve

end MachineM

end SlotScript
