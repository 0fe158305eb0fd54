import SlotScript.Body.Elements
import SlotScript.NameTable
import SlotScript.Value.Basic

/-!
Container bodies: what a slot owns besides its value. A body lists the slots of its members; the
values of the members are in those slots.
-/

namespace SlotScript

/-- What a body holds besides named properties. -/
inductive Content where
  | object
  | array (elements : Elements)
  | function (parameters : List String) (code scope : Nat)
deriving DecidableEq

/-- The body of an object, an array or a function. -/
structure Body where
  content : Content
  properties : NameTable := ∅
deriving DecidableEq

namespace Body

/-- The shape of the values that refer to the body. -/
def shape (b : Body) : Shape :=
  match b.content with
  | .object => .object
  | .array _ => .array
  | .function _ _ _ => .function

/-- The elements of an array. -/
def elements? (b : Body) : Option Elements :=
  match b.content with
  | .array elements => some elements
  | _ => none

/-- The value that refers to the body when `slot` owns it. -/
def valueAt (b : Body) (slot : SlotId) : Value := .compound b.shape slot

/-- The member slots: elements in the order of their indices, then properties. -/
def members (b : Body) : List SlotId :=
  (b.elements?.map Elements.slots).getD [] ++ b.properties.slots

/-- Changes the elements of an array; other bodies stay as they are. -/
def mapElements (f : Elements → Elements) (b : Body) : Body :=
  match b.content with
  | .array elements => { b with content := .array (f elements) }
  | _ => b

/-- Gives a property its slot. -/
def insertProperty (name : String) (slot : SlotId) (b : Body) : Body :=
  { b with properties := b.properties.insert name slot }

end Body

end SlotScript
