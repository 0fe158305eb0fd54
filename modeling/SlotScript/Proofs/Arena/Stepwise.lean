import SlotScript.Proofs.Body
import SlotScript.Proofs.Ends

/-!
# What every step does, an arena operation does

Operations on an arena are put together from a few steps. `ArenaM.Building P`: the property `P` of
operations holds of the steps that only read and allocate, and passes from steps to what is put together
from them; then it holds of `build` and of all that gives slots to bindings and members.
`ArenaM.Writing P` adds the steps that change values and bodies, for `setProperty`.
-/

namespace SlotScript

namespace ArenaM

/-- What the operation reads depends on the slots only. -/
def ReadsSlots {α : Type} (f : Arena → Except ArenaError α) : Prop :=
  ∀ ⦃a b : Arena⦄, a.slots = b.slots → f a = f b

theorem readsSlots_get (slot : SlotId) : ReadsSlots (·.get slot) := by
  intro a b h
  simp only [Arena.get, Arena.get?, h]

theorem readsSlots_value (slot : SlotId) : ReadsSlots (·.value slot) := by
  intro a b h
  simp only [Arena.value, readsSlots_get slot h]

theorem readsSlots_body (slot : SlotId) : ReadsSlots (·.body slot) := by
  intro a b h
  simp only [Arena.body, readsSlots_get slot h]

theorem readsSlots_resolve (outcome : Outcome) : ReadsSlots (·.resolve outcome) := by
  intro a b h
  cases outcome with
  | fresh value => rfl
  | aliased slot => exact readsSlots_value slot h
  | minted slot => exact readsSlots_value slot h

/-- `P` holds of the steps that read and allocate, and of what is put together from operations of which
it holds. -/
structure Building (P : {α : Type} → ArenaM α → Prop) : Prop where
  pure : ∀ {α : Type} (x : α), P (Pure.pure x : ArenaM α)
  bind : ∀ {α β : Type} {act : ArenaM α} {f : α → ArenaM β}, P act → (∀ x, P (f x)) → P (act >>= f)
  read : ∀ {α : Type} {f : Arena → Except ArenaError α}, ReadsSlots f → P (read f)
  alloc : ∀ value, P (alloc value)
  allocBody : ∀ body : Body, body.Built → P (allocBody body)

namespace Building

variable {P : {α : Type} → ArenaM α → Prop} (h : Building P)
include h

theorem bindingSlot (outcome : Outcome) : P (bindingSlot outcome) := by
  cases outcome with
  | fresh value => exact h.alloc value
  | aliased slot => exact h.bind (h.read (readsSlots_value slot)) fun value => h.alloc value
  | minted slot => exact h.bind (h.read (readsSlots_get slot)) fun _ => h.pure slot

theorem memberSlot (outcome : Outcome) : P (memberSlot outcome) := by
  cases outcome with
  | fresh value => exact h.bind (h.alloc value) fun slot => h.pure (slot, true)
  | aliased slot => exact h.bind (h.read (readsSlots_get slot)) fun _ => h.pure (slot, false)
  | minted slot => exact h.bind (h.read (readsSlots_get slot)) fun _ => h.pure (slot, true)

theorem elementSlots (elements : List Outcome) : P (elementSlots elements) := by
  induction elements with
  | nil => exact h.pure []
  | cons element rest ih =>
    exact h.bind (h.memberSlot element) fun _ => h.bind ih fun _ => h.pure _

theorem namedSlots (members : List (String × Outcome)) : P (namedSlots members) := by
  rw [namedSlots_eq_map, map_eq_pure_bind]
  exact h.bind (h.elementSlots _) fun _ => h.pure _

/-- What the steps of building do, building does. -/
theorem build (container : NewContainer) : P (build container) := by
  cases container with
  | object members =>
    exact h.bind (h.namedSlots members) fun slots => h.allocBody _ fun e he => by cases he
  | array elements =>
    refine h.bind (h.elementSlots elements) fun slots => h.allocBody _ fun e he => ?_
    exact ⟨slots, (Option.some.inj he).symm⟩
  | function parameters code scope properties => exact h.allocBody _ fun e he => by cases he

end Building

/-- `P` holds of the steps of building, of changes to the value in a slot, and of the changes to a body
that a write makes. -/
structure Writing (P : {α : Type} → ArenaM α → Prop) : Prop extends Building P where
  setValue : ∀ slot value, P (setValue slot value)
  cutElements : ∀ owner length, P (modifyBody owner (·.mapElements (·.setLength length)))
  putSlot : ∀ owner slot {place : Place}, place.Fits → P (modifyBody owner (·.putSlot place slot))

namespace Writing

variable {P : {α : Type} → ArenaM α → Prop} (h : Writing P)
include h

theorem setLength (owner : SlotId) (outcome : Outcome) : P (setLength owner outcome) :=
  h.bind (h.read (readsSlots_resolve outcome)) fun _ =>
    h.bind (h.read fun _ _ _ => rfl) fun length => h.cutElements owner length

theorem setPlace (owner : SlotId) {place : Place} (hplace : place.Fits) (outcome : Outcome) :
    P (setPlace owner place outcome) := by
  refine h.bind (h.read (readsSlots_body owner)) fun body => ?_
  cases body.slotAt? place with
  | some slot => exact h.bind (h.read (readsSlots_resolve outcome)) fun value => h.setValue slot value
  | none => exact h.bind (h.memberSlot outcome) fun r => h.putSlot owner r.1 hplace

/-- What the steps of a write do, the write does. -/
theorem setProperty (base : Value) (key : String) (outcome : Outcome) :
    P (setProperty base key outcome) := by
  unfold ArenaM.setProperty
  cases base.handle? with
  | none => exact h.pure ()
  | some owner =>
    refine h.bind (h.read (readsSlots_body owner)) fun body => ?_
    have hfits := body.place_fits key
    cases hplace : body.place key with
    | length => exact h.setLength owner outcome
    | element index => exact h.setPlace owner (hplace ▸ hfits) outcome
    | property name => exact h.setPlace owner (hplace ▸ hfits) outcome

end Writing

end ArenaM

end SlotScript
