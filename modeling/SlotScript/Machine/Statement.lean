import SlotScript.Machine.Eval

/-!
Statements and programs.
-/

namespace SlotScript

/-- A statement. -/
inductive Statement where
  /-- Declares a name, with or without an initial value. -/
  | declare (name : String) (initial : Option Expr)
  | assign (target value : Expr)
  /-- Evaluates an expression for its effects. -/
  | evaluate (e : Expr)

namespace MachineM

/-- What a declaration starts from: its initial value, else the value that the name has already, else
`undefined`. -/
def initialOutcome (name : String) : Option Expr → MachineM Outcome
  | some e => eval e
  | none => do
    match (← get).bindings.get? name with
    | some slot => return .aliased slot
    | none => return .fresh .undefined

/-- Declares a name. It gets a slot of its own even if it has one already. -/
def declare (name : String) (initial : Option Expr) : MachineM SlotId := do
  let outcome ← initialOutcome name initial
  let slot ← onArena (.bindingSlot outcome)
  modify fun m => { m with bindings := m.bindings.insert name slot }
  return slot

/-- Assigns to the property of `base` under the name that `property` gives. Base, name and value are
evaluated in this order. -/
def assignProperty (base : Expr) (property : MachineM String) (value : Expr) : MachineM Unit := do
  let base ← evalValue base
  holdValue base
  let property ← property
  checkBase base property
  let outcome ← eval value
  onArena (.setProperty base property outcome)

/-- Assigns to a name or a property. A name must have been declared before its value is evaluated. -/
def assign (target value : Expr) : MachineM Unit :=
  match target with
  | .name name => do
    let slot ← lookup name
    let value ← evalValue value
    onArena (.setValue slot value)
  | .member base property => releasing (assignProperty base (return property) value)
  | .index base key => releasing (assignProperty base (Value.toText <$> evalValue key) value)
  | _ => throw .invalidAssignmentTarget

/-- Runs a statement. -/
def execute : Statement → MachineM Unit
  | .declare name initial => do
    let _ ← declare name initial
  | .assign target value => assign target value
  | .evaluate e => do
    let _ ← eval e

/-- Runs statements in order, up to the first that fails. -/
def run (program : List Statement) : MachineM Unit := program.forM execute

end MachineM

end SlotScript
