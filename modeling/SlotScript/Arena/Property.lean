import SlotScript.Arena.Container

/-!
Reading and writing properties.

A compound base gives access to its body: an array answers to element indices and to its length, and
every container to named properties. Of the primitive values only a text has properties, its length
and its characters, and none can be written.
-/

namespace SlotScript

/-- The name of the length of an array or a text. -/
def lengthKey : String := "length"

/-- A property of a primitive value. -/
def Value.primitiveProperty (base : Value) (key : String) : Value :=
  match base.text? with
  | none => .undefined
  | some s =>
    if key = lengthKey then .number (.ofNat s.length)
    else
      match arrayIndex? key >>= (s.toList[·]?) with
      | some c => .text (String.singleton c)
      | none => .undefined

theorem Value.handle?_primitiveProperty (base : Value) (key : String) :
    (base.primitiveProperty key).handle? = none := by
  unfold primitiveProperty
  repeat' split
  all_goals rfl

/-- What a key addresses in a body. -/
inductive Place where
  | element (index : Nat)
  | length
  | property (name : String)
deriving DecidableEq

/-- The place that a key addresses in a body. Only arrays have elements and a length. -/
def Body.place (b : Body) (key : String) : Place :=
  match b.elements?, arrayIndex? key with
  | some _, some index => .element index
  | some _, none => if key = lengthKey then .length else .property key
  | none, _ => .property key

/-- The slot at a place. -/
def Body.slotAt? (b : Body) : Place → Option SlotId
  | .element index => b.elements? >>= (·.get? index)
  | .length => none
  | .property name => b.properties.get? name

/-- The body with a slot put at a place. -/
def Body.putSlot (place : Place) (slot : SlotId) (b : Body) : Body :=
  match place with
  | .element index => b.mapElements (·.set index slot)
  | .length => b
  | .property name => b.insertProperty name slot

/-- The length of an array; zero for other bodies. -/
def Body.length (b : Body) : Nat := (b.elements?.map Elements.length).getD 0

/-- The array length that a value denotes: its number, if that is a whole one below `2 ^ 32`. -/
def arrayLength (value : Value) : Except ArenaError Nat :=
  match value.toNumber.toNat? with
  | some n => if n ≤ maxArrayLength then .ok n else .error (.invalidArrayLength value.toNumber)
  | none => .error (.invalidArrayLength value.toNumber)

/-- What a body has under `key`. A property that is not there reads as `undefined`. -/
def Body.property (b : Body) (key : String) : Outcome :=
  match b.place key with
  | .length => .fresh (.number (.ofNat b.length))
  | place =>
    match b.slotAt? place with
    | some slot => .aliased slot
    | none => .fresh .undefined

/-- The property of `base` under `key`. -/
def Arena.getProperty (a : Arena) (base : Value) (key : String) : Except ArenaError Outcome :=
  match base.handle? with
  | none => return .fresh (base.primitiveProperty key)
  | some owner => return (← a.body owner).property key

namespace ArenaM

/-- Sets the length of the array that `owner` owns. -/
def setLength (owner : SlotId) (outcome : Outcome) : ArenaM Unit := do
  let value ← read (·.resolve outcome)
  let length ← read fun _ => arrayLength value
  modifyBody owner (·.mapElements (·.setLength length))

/-- Writes to a place other than the length: into the slot that is there, or by putting a slot for
the outcome there. -/
def setPlace (owner : SlotId) (place : Place) (outcome : Outcome) : ArenaM Unit := do
  match (← read (·.body owner)).slotAt? place with
  | some slot => do
    let value ← read (·.resolve outcome)
    setValue slot value
  | none => do
    let (slot, _) ← memberSlot outcome
    modifyBody owner (·.putSlot place slot)

/-- Writes the property of `base` under `key`. A write to a primitive value is ignored. -/
def setProperty (base : Value) (key : String) (outcome : Outcome) : ArenaM Unit :=
  match base.handle? with
  | none => return ()
  | some owner => do
    match (← read (·.body owner)).place key with
    | .length => setLength owner outcome
    | place => setPlace owner place outcome

end ArenaM

end SlotScript
