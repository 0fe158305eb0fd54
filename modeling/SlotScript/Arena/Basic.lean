import SlotScript.Body.Basic
import SlotScript.Config.Basic
import SlotScript.Value.Equality

/-!
The arena: a table of slots, with the ids of freed slots waiting for reuse.

An operation that can fail runs in `ArenaM`. When it fails half-way, what it has done so far stays
done.
-/

namespace SlotScript

/-- A live slot: the value stored in it and, for a container, the body that it owns. -/
structure Slot where
  value : Value
  body : Option Body := none
deriving DecidableEq

/-- The slots of a program. -/
structure Arena where
  config : ArenaConfig := {}
  /-- The entry of a live slot holds the slot, that of a freed one is empty. -/
  slots : Array (Option Slot) := #[]
  /-- The freed ids, the next one to be reused first. -/
  free : List SlotId := []
  /-- The number of live slots. -/
  live : Nat := 0
  /-- The number of slots ever allocated. -/
  total : Nat := 0
  /-- The number of collections that have run. -/
  collections : Nat := 0
deriving DecidableEq

/-- Why an arena operation fails. -/
inductive ArenaError where
  /-- As many slots are live as the capacity allows. -/
  | exhausted (capacity : UInt32)
  | danglingSlot (slot : SlotId)
  /-- The slot owns no body. -/
  | notAContainer (slot : SlotId)
  | invalidArrayLength (length : Double)
deriving DecidableEq

namespace ArenaError

def message : ArenaError → String
  | exhausted capacity => "arena exhausted: all " ++ toString capacity.toNat ++ " slots are live"
  | danglingSlot slot => "slot " ++ slot.toText ++ " is not live"
  | notAContainer slot => "slot " ++ slot.toText ++ " does not hold a container body"
  | invalidArrayLength length => "invalid array length: " ++ length.toText

/-- Whether execution cannot go on after the error. -/
def isFatal : ArenaError → Bool
  | exhausted _ => true
  | _ => false

end ArenaError

/-- Operations on an arena that may fail. -/
abbrev ArenaM := EStateM ArenaError Arena

/-- The outcome of evaluating an expression. -/
inductive Outcome where
  /-- A value that is stored nowhere. -/
  | fresh (value : Value)
  /-- The value of a slot that something else refers to. -/
  | aliased (slot : SlotId)
  /-- The value of a slot that was allocated for this outcome. -/
  | minted (slot : SlotId)
deriving DecidableEq

namespace Outcome

/-- The slot behind the outcome. -/
def slot? : Outcome → Option SlotId
  | fresh _ => none
  | aliased slot | minted slot => some slot

/-- Whether something else may refer to the slot. -/
def isAlias : Outcome → Bool
  | aliased _ => true
  | _ => false

/-- Equality of outcomes, with values compared strictly. -/
def same : Outcome → Outcome → Bool
  | fresh v, fresh w => v.strictEq w
  | a, b => a = b

end Outcome

namespace Arena

/-! ### Reading -/

/-- The live slot with this id. -/
def get? (a : Arena) (slot : SlotId) : Option Slot := a.slots[slot.index]?.join

def isLive (a : Arena) (slot : SlotId) : Bool := (a.get? slot).isSome

/-- The ids of the live slots, in ascending order. -/
def liveSlots (a : Arena) : List SlotId :=
  ((List.range a.slots.size).map SlotId.mk).filter a.isLive

def get (a : Arena) (slot : SlotId) : Except ArenaError Slot :=
  match a.get? slot with
  | some s => .ok s
  | none => .error (.danglingSlot slot)

/-- The value stored in a slot. -/
def value (a : Arena) (slot : SlotId) : Except ArenaError Value := do
  return (← a.get slot).value

/-- The body that a slot owns. -/
def body (a : Arena) (slot : SlotId) : Except ArenaError Body := do
  match (← a.get slot).body with
  | some body => return body
  | none => throw (.notAContainer slot)

/-- The value that an outcome stands for. -/
def resolve (a : Arena) : Outcome → Except ArenaError Value
  | .fresh value => return value
  | .aliased slot | .minted slot => a.value slot

theorem mem_liveSlots {a : Arena} {slot : SlotId} : slot ∈ a.liveSlots ↔ a.isLive slot := by
  simp only [liveSlots, List.mem_filter, List.mem_map, List.mem_range, and_iff_right_iff_imp]
  intro h
  refine ⟨slot.index, ?_, rfl⟩
  simp only [isLive, get?, Option.isSome_join] at h
  exact (Array.getElem?_eq_some_iff.1 (Option.eq_some_of_isSome (Option.isSome_of_any h))).1

theorem isLive_of_body {a : Arena} {slot : SlotId} {body : Body} (h : a.body slot = .ok body) :
    a.isLive slot := by
  simp only [isLive]
  cases h' : a.get? slot with
  | some s => rfl
  | none => simp [Arena.body, Arena.get, h', bind, Except.bind] at h

/-! ### Writing -/

/-- The arena with a live slot changed by `f`; a slot that is not live stays empty. -/
def modifySlot (a : Arena) (slot : SlotId) (f : Slot → Slot) : Arena :=
  { a with slots := a.slots.modify slot.index (·.map f) }

theorem get?_modifySlot (a : Arena) (slot other : SlotId) (f : Slot → Slot) :
    (a.modifySlot slot f).get? other = if other = slot then (a.get? other).map f else a.get? other := by
  obtain ⟨i⟩ := slot
  obtain ⟨j⟩ := other
  simp only [modifySlot, get?, Array.getElem?_modify, SlotId.mk.injEq]
  by_cases h : i = j
  · subst h
    cases a.slots[i]? with
    | none => simp
    | some entry => cases entry <;> simp
  · simp [h, Ne.symm h]

end Arena

namespace ArenaM

/-- Runs a reading operation. -/
def read {α : Type} (f : Arena → Except ArenaError α) : ArenaM α := do
  match f (← get) with
  | .ok x => return x
  | .error e => throw e

section

variable {α : Type} {f : Arena → Except ArenaError α} {a : Arena}

theorem read_eq_ok {x : α} (h : f a = .ok x) : read f a = .ok x a := by
  have hget : (get : ArenaM Arena) a = .ok a a := rfl
  simp only [read, bind, EStateM.bind, hget, h]
  rfl

theorem read_eq_error {e : ArenaError} (h : f a = .error e) : read f a = .error e a := by
  have hget : (get : ArenaM Arena) a = .ok a a := rfl
  simp only [read, bind, EStateM.bind, hget, h]
  rfl

end

/-- Allocates a slot and stores in it what `slot` gives for its id. The most recently freed id is
taken first, then the next one that was never used. -/
def allocWith (slot : SlotId → Slot) : ArenaM SlotId := fun a =>
  if a.config.capacity.toNat ≤ a.live then
    .error (.exhausted a.config.capacity) a
  else
    let counted := { a with live := a.live + 1, total := a.total + 1 }
    match a.free with
    | id :: free =>
      .ok id { counted with slots := a.slots.setIfInBounds id.index (some (slot id)), free }
    | [] =>
      let id : SlotId := ⟨a.slots.size⟩
      if id.index < UInt32.size then
        .ok id { counted with slots := a.slots.push (some (slot id)) }
      else .error (.exhausted a.config.capacity) a

/-- Allocates a slot for a value. -/
def alloc (value : Value) : ArenaM SlotId := allocWith fun _ => { value }

/-- Allocates a slot that owns a body and stores the value that refers to it. -/
def allocBody (body : Body) : ArenaM SlotId :=
  allocWith fun id => { value := body.valueAt id, body := some body }

/-- Replaces the value in a slot. -/
def setValue (slot : SlotId) (value : Value) : ArenaM Unit := do
  let _ ← read (·.get slot)
  modify (·.modifySlot slot ({ · with value }))

/-- Changes the body that a slot owns. -/
def modifyBody (slot : SlotId) (f : Body → Body) : ArenaM Unit := do
  let _ ← read (·.body slot)
  modify (·.modifySlot slot fun s => { s with body := s.body.map f })

end ArenaM

end SlotScript
