import SlotScript.Config.Basic
import SlotScript.Json.Document

/-!
Configuration as JSON. Fields that are left out keep their defaults, and unknown fields are ignored.
-/

namespace SlotScript

/-! ### Reading -/

/-- Reads a policy: its name, or an object whose only field is that name with `null`. -/
def Reclamation.ofJson? : Json → Option Reclamation
  | .scalar (.string (some name)) | .object [(some name, .scalar .null)] => ofName? name
  | _ => none

def ArenaConfig.ofJson? (json : Json) : Option ArenaConfig := do
  let fields ← json.toFields?
  let default : ArenaConfig := {}
  let capacity ← Json.field? fields "capacity" default.capacity Json.toUInt32?
  let reclamation ← Json.field? fields "reclamation" default.reclamation Reclamation.ofJson?
  return { capacity, reclamation }

def MachineConfig.ofJson? (json : Json) : Option MachineConfig := do
  let fields ← json.toFields?
  let default : MachineConfig := {}
  let arena ← Json.field? fields "arena" default.arena ArenaConfig.ofJson?
  let collectOnRemove ← Json.field? fields "collect_on_remove" default.collectOnRemove Json.toBool?
  return { arena, collectOnRemove }

/-! ### Writing -/

/-- A JSON object with these fields, whose values are already written. -/
def jsonObject (fields : List (String × String)) : String :=
  "\x7b" ++ ",".intercalate (fields.map fun (name, value) => "\"" ++ name ++ "\":" ++ value) ++ "\x7d"

def Reclamation.toJson (r : Reclamation) : String := "\"" ++ r.name ++ "\""

def ArenaConfig.toJson (c : ArenaConfig) : String :=
  jsonObject [("capacity", toString c.capacity.toNat), ("reclamation", c.reclamation.toJson)]

def MachineConfig.toJson (c : MachineConfig) : String :=
  jsonObject [("arena", c.arena.toJson), ("collect_on_remove", toString c.collectOnRemove)]

end SlotScript
