import SlotScript.Arena.Basic

/-!
Slots for bindings, for members, and for new containers.

A binding never shares a slot with something else, so it copies an aliased value. A member does share
the slot of what it was made from.
-/

namespace SlotScript

/-- A container to be built from evaluated members. -/
inductive NewContainer where
  | object (members : List (String × Outcome))
  | array (elements : List Outcome)
  | function (parameters : List String) (code scope : Nat) (properties : NameTable := ∅)

namespace ArenaM

/-- The slot for a new binding: a minted slot itself, otherwise a new slot with the value. -/
def bindingSlot : Outcome → ArenaM SlotId
  | .fresh value => alloc value
  | .aliased source => do alloc (← read (·.value source))
  | .minted slot => do
    let _ ← read (·.get slot)
    return slot

/-- The slot for a new member, and whether nothing else refers to it: the slot behind the outcome, or
a new one for a fresh value. -/
def memberSlot : Outcome → ArenaM (SlotId × Bool)
  | .fresh value => return (← alloc value, true)
  | .aliased slot => do
    let _ ← read (·.get slot)
    return (slot, false)
  | .minted slot => do
    let _ ← read (·.get slot)
    return (slot, true)

/-- The slots for named members, in order. -/
def namedSlots : List (String × Outcome) → ArenaM (List (String × SlotId))
  | [] => return []
  | (name, member) :: rest => do
    let (slot, _) ← memberSlot member
    return (name, slot) :: (← namedSlots rest)

/-- The slots for elements, in order. -/
def elementSlots : List Outcome → ArenaM (List SlotId)
  | [] => return []
  | element :: rest => do
    let (slot, _) ← memberSlot element
    return slot :: (← elementSlots rest)

/-- Named members get their slots as elements do. -/
theorem namedSlots_eq_map (members : List (String × Outcome)) :
    namedSlots members = (members.map (·.1)).zip <$> elementSlots (members.map (·.2)) := by
  induction members with
  | nil => rfl
  | cons member rest ih =>
    simp only [namedSlots, elementSlots, List.map_cons, ih, map_eq_pure_bind, bind_assoc, pure_bind,
      List.zip_cons_cons]

/-- Builds a container and returns the slot that owns it. Of two members with one name the later one
counts, at the place of the earlier one. -/
def build : NewContainer → ArenaM SlotId
  | .object members => do
    let slots ← namedSlots members
    allocBody { content := .object, properties := .ofList slots }
  | .array elements => do
    let slots ← elementSlots elements
    allocBody { content := .array (.ofList slots) }
  | .function parameters code scope properties =>
    allocBody { content := .function parameters code scope, properties }

end ArenaM

end SlotScript
