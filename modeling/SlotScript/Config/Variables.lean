import SlotScript.Config.Basic
import SlotScript.Text.Quoted

/-!
Configuration by named variables. A variable that is not set leaves its default.
-/

namespace SlotScript

/-- The variable for the capacity. -/
def capacityVariable : String := "BROOK_ARENA_CAPACITY"

/-- The variable for the reclamation policy. -/
def reclamationVariable : String := "BROOK_RECLAMATION"

/-- The variable for collections on removal. -/
def collectOnRemoveVariable : String := "BROOK_COLLECT_ON_REMOVE"

/-- Why a variable is refused, with its text. -/
inductive ConfigError where
  | invalidCapacity (text : String)
  | invalidReclamation (text : String)
  | invalidFlag (name text : String)
deriving DecidableEq

def ConfigError.message : ConfigError → String
  | invalidCapacity text => capacityVariable ++ ": invalid capacity " ++ Text.literal text
  | invalidReclamation text =>
    reclamationVariable ++ ": unknown reclamation policy " ++ Text.literal text
  | invalidFlag name text => name ++ ": invalid flag " ++ Text.literal text

namespace Setting

/-- A setting without blanks around it and in lower case. Only ASCII letters have a case here. -/
def word (text : String) : String :=
  String.ofList ((Text.trim text.toList).map Char.toLower)

/-- Reads a positive number of slots that fits in 32 bits, with an optional plus sign. -/
def capacity? (text : String) : Option UInt32 :=
  let digits :=
    match Text.trim text.toList with
    | '+' :: cs => cs
    | cs => cs
  let capacity := Nat.ofDigitChars 10 digits 0
  if digits.all Char.isDigit ∧ 0 < capacity ∧ capacity < UInt32.size then
    some (.ofNat capacity)
  else none

/-- Reads a truth value in any case, as a word or as a digit. -/
def flag? (text : String) : Option Bool :=
  if word text = "true" ∨ word text = "1" then some true
  else if word text = "false" ∨ word text = "0" then some false
  else none

/-- The setting of a variable, or its default. -/
def read {α : Type} (lookup : String → Option String) (name : String) (default : α)
    (read? : String → Option α) (error : String → ConfigError) : Except ConfigError α :=
  match lookup name with
  | none => .ok default
  | some text =>
    match read? text with
    | some setting => .ok setting
    | none => .error (error text)

end Setting

/-- Reads a policy in any case; `off` stands for `disabled`. -/
def Reclamation.ofText? (text : String) : Option Reclamation :=
  if Setting.word text = "off" then some .disabled else Reclamation.ofName? (Setting.word text)

/-- The configuration that the variables give. The first one that is refused is reported. -/
def MachineConfig.ofVariables (lookup : String → Option String) :
    Except ConfigError MachineConfig := do
  let default : MachineConfig := {}
  let capacity ← Setting.read lookup capacityVariable default.arena.capacity Setting.capacity?
    .invalidCapacity
  let reclamation ← Setting.read lookup reclamationVariable default.arena.reclamation
    Reclamation.ofText? .invalidReclamation
  let collectOnRemove ← Setting.read lookup collectOnRemoveVariable default.collectOnRemove
    Setting.flag? (.invalidFlag collectOnRemoveVariable)
  return { arena := { capacity, reclamation }, collectOnRemove }

end SlotScript
