/-!
What can be configured: how many slots may be live, whether unreachable slots are reclaimed, and
whether removing a binding triggers that.
-/

namespace SlotScript

/-- What a collection does. -/
inductive Reclamation where
  /-- Collections do nothing. -/
  | disabled
  /-- Collections free every unreachable slot. -/
  | markSweep
deriving DecidableEq

/-- The name of a policy. -/
def Reclamation.name : Reclamation → String
  | disabled => "disabled"
  | markSweep => "mark-sweep"

/-- The policy with exactly this name. -/
def Reclamation.ofName? (name : String) : Option Reclamation :=
  [disabled, markSweep].find? (·.name = name)

/-- The configuration of an arena. -/
structure ArenaConfig where
  /-- The greatest number of slots that may be live at once. -/
  capacity : UInt32 := 4294967295
  reclamation : Reclamation := .disabled
deriving DecidableEq

/-- The configuration of a machine. -/
structure MachineConfig where
  arena : ArenaConfig := {}
  /-- Whether removing a binding runs a collection. -/
  collectOnRemove : Bool := false
deriving DecidableEq

end SlotScript
