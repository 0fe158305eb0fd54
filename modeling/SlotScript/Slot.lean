/-!
Slot ids: the places in which values are stored.
-/

namespace SlotScript

/-- The id of a slot: its index in the slot table. -/
structure SlotId where
  index : Nat
deriving DecidableEq

namespace SlotId

/-- The id in a message. -/
def toText (slot : SlotId) : String := s!"#{slot.index}"

/-- The id in a diagnostic. -/
def diagnostic (slot : SlotId) : String := s!"SlotId({slot.index})"

instance : Ord SlotId := ⟨fun a b => compare a.index b.index⟩

end SlotId

end SlotScript
