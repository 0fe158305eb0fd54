/-!
Intrinsics: the functions that programs can call to ask about the arena.
-/

namespace SlotScript

/-- A function of the language itself. -/
inductive Intrinsic where
  /-- The number of live slots. -/
  | liveSlots
  /-- The number of slots ever allocated. -/
  | totalAllocations
  /-- Runs a collection and gives the number of freed slots. -/
  | collect
deriving DecidableEq

namespace Intrinsic

def all : List Intrinsic := [liveSlots, totalAllocations, collect]

/-- The number under which an intrinsic is known to clients. -/
def code : Intrinsic → Nat
  | liveSlots => 0
  | totalAllocations => 1
  | collect => 2

/-- The name by which programs call an intrinsic. -/
def name : Intrinsic → String
  | liveSlots => "gb_variables_count"
  | totalAllocations => "gb_total_allocations"
  | collect => "gb_collect"

/-- The intrinsic with this name. -/
def ofName? (name : String) : Option Intrinsic := all.find? (·.name = name)

theorem name_of_ofName? {name : String} {intrinsic : Intrinsic}
    (h : ofName? name = some intrinsic) : intrinsic.name = name := by
  have hfound := List.find?_some h
  exact of_decide_eq_true hfound

end Intrinsic

end SlotScript
