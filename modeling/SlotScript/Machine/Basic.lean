import SlotScript.Arena.Collect
import SlotScript.Arena.Display
import SlotScript.Arena.Property

/-!
The machine: an arena, the bindings of the global scope, and the references that evaluation in
progress still needs.

An intermediate outcome that a later operand could outlive is held as a temporary, so a collection in
between keeps it. What is held while an expression is evaluated is released when that is done, whether
it succeeds or fails.
-/

namespace SlotScript

/-- The id of the only scope. -/
def globalScope : Nat := 0

/-- The state of a running program. -/
structure Machine where
  arena : Arena := {}
  bindings : NameTable := ∅
  collectOnRemove : Bool := false
  /-- The references held by evaluations in progress, the latest first. -/
  temporaries : List Reference := []
deriving DecidableEq

/-- Why a statement or an expression fails. -/
inductive MachineError where
  | undeclaredBinding (name : String)
  /-- Access to a property of `undefined` or `null`. -/
  | propertyOfNullish (property : String) (base : Kind)
  | invalidAssignmentTarget
  | unknownIntrinsic (name : String)
  | arena (e : ArenaError)
deriving DecidableEq

namespace MachineError

def message : MachineError → String
  | undeclaredBinding name => name ++ " is not defined"
  | propertyOfNullish property base =>
    "cannot access property '" ++ property ++ "' of " ++ base.name
  | invalidAssignmentTarget => "invalid assignment target"
  | unknownIntrinsic name => name ++ " is not a function"
  | arena e => e.message

/-- Whether execution cannot go on after the error. -/
def isFatal : MachineError → Bool
  | arena e => e.isFatal
  | _ => false

end MachineError

/-- Operations on a machine that may fail. -/
abbrev MachineM := EStateM MachineError Machine

namespace Machine

/-- A machine without slots and bindings. -/
def new (config : MachineConfig) : Machine where
  arena := { config := config.arena }
  collectOnRemove := config.collectOnRemove

def config (m : Machine) : MachineConfig where
  arena := m.arena.config
  collectOnRemove := m.collectOnRemove

/-- What a collection starts from: the bindings and the temporaries. -/
def roots (m : Machine) : List Reference := m.bindings.slots.map .slot ++ m.temporaries

/-- Runs a collection. -/
def collect (m : Machine) : CollectionReport × Machine :=
  let (report, arena) := m.arena.collect m.roots
  (report, { m with arena })

/-- Removes a binding and returns the slot that it had. A collection follows if the machine is set up
so and there was a binding. -/
def removeBinding (m : Machine) (name : String) : Option SlotId × Machine :=
  match m.bindings.getThenErase name with
  | (none, _) => (none, m)
  | (some slot, bindings) =>
    let removed := { m with bindings }
    (some slot, if m.collectOnRemove then removed.collect.2 else removed)

theorem removeBinding_of_none {m : Machine} {name : String} (h : m.bindings.get? name = none) :
    m.removeBinding name = (none, m) := by
  unfold removeBinding NameTable.getThenErase
  rw [h]

theorem removeBinding_of_some {m : Machine} {name : String} {slot : SlotId}
    (h : m.bindings.get? name = some slot) : (m.removeBinding name).2 =
      if m.collectOnRemove then
        (collect { m with bindings := (m.bindings.getThenErase name).2 }).2
      else { m with bindings := (m.bindings.getThenErase name).2 } := by
  unfold removeBinding NameTable.getThenErase
  rw [h]

/-- Drops the latest temporaries until `depth` are left. -/
def release (m : Machine) (depth : Nat) : Machine :=
  { m with temporaries := m.temporaries.drop (m.temporaries.length - depth) }

end Machine

namespace MachineM

/-- Runs an operation on the arena. -/
def onArena {α : Type} (act : ArenaM α) : MachineM α := fun m =>
  match act m.arena with
  | .ok x arena => .ok x { m with arena }
  | .error e arena => .error (.arena e) { m with arena }

theorem onArena_eq_ok {α : Type} {act : ArenaM α} {m : Machine} {x : α} {arena : Arena}
    (h : act m.arena = .ok x arena) : onArena act m = .ok x { m with arena } := by
  rw [onArena, h]

theorem onArena_eq_error {α : Type} {act : ArenaM α} {m : Machine} {e : ArenaError} {arena : Arena}
    (h : act m.arena = .error e arena) : onArena act m = .error (.arena e) { m with arena } := by
  rw [onArena, h]

/-- Runs a reading operation on the arena. -/
def reading {α : Type} (f : Arena → Except ArenaError α) : MachineM α := onArena (ArenaM.read f)

theorem reading_eq_ok {α : Type} {f : Arena → Except ArenaError α} {m : Machine} {x : α}
    (h : f m.arena = .ok x) : reading f m = .ok x m := onArena_eq_ok (ArenaM.read_eq_ok h)

/-- The value that an outcome stands for. -/
def resolve (outcome : Outcome) : MachineM Value := reading (·.resolve outcome)

/-- Runs an operation and releases the temporaries that it holds at its end. -/
def releasing {α : Type} (act : MachineM α) : MachineM α := fun m =>
  match act m with
  | .ok x m' => .ok x (m'.release m.temporaries.length)
  | .error e m' => .error e (m'.release m.temporaries.length)

theorem releasing_eq_ok {α : Type} {act : MachineM α} {m m' : Machine} {x : α}
    (h : act m = .ok x m') : releasing act m = .ok x (m'.release m.temporaries.length) := by
  rw [releasing, h]

theorem releasing_eq_error {α : Type} {act : MachineM α} {m m' : Machine} {e : MachineError}
    (h : act m = .error e m') : releasing act m = .error e (m'.release m.temporaries.length) := by
  rw [releasing, h]

def holdReference (r : Reference) : MachineM Unit :=
  modify fun m => { m with temporaries := r :: m.temporaries }

/-- Holds what a value refers to. -/
def holdValue (value : Value) : MachineM Unit :=
  match value.handle? with
  | some owner => holdReference (.handle owner)
  | none => return ()

/-- Holds what an outcome refers to. -/
def hold : Outcome → MachineM Unit
  | .fresh value => holdValue value
  | .aliased slot | .minted slot => holdReference (.slot slot)

/-- The slot of a binding. -/
def lookup (name : String) : MachineM SlotId := do
  match (← get).bindings.get? name with
  | some slot => return slot
  | none => throw (.undeclaredBinding name)

theorem lookup_eq_ok {m : Machine} {name : String} {slot : SlotId}
    (h : m.bindings.get? name = some slot) : lookup name m = .ok slot m := by
  have hget : (get : MachineM Machine) m = .ok m m := rfl
  simp only [lookup, bind, EStateM.bind, hget, h]
  rfl

theorem lookup_eq_error {m : Machine} {name : String} (h : m.bindings.get? name = none) :
    lookup name m = .error (.undeclaredBinding name) m := by
  have hget : (get : MachineM Machine) m = .ok m m := rfl
  simp only [lookup, bind, EStateM.bind, hget, h]
  rfl

/-- Refuses `undefined` and `null` as the base of a property. -/
def checkBase (base : Value) (property : String) : MachineM Unit :=
  if base.isNullish then throw (.propertyOfNullish property base.kind) else return ()

/-- The value of a binding. -/
def valueOf (name : String) : MachineM Value := do
  let slot ← lookup name
  reading (·.value slot)

end MachineM

end SlotScript
