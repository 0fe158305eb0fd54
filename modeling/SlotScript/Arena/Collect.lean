import SlotScript.Arena.Basic

/-!
Collection of unreachable slots.

What a collection follows are references of two kinds. A reference to a slot keeps the slot with the
value stored in it. A handle keeps what the value that names a slot needs: the slot and the body that
it owns. So a body whose only handles are gone is dropped even where its slot stays, because the value
in it was overwritten.
-/

namespace SlotScript

/-- A reference that keeps something in the arena. -/
inductive Reference where
  | slot (id : SlotId)
  | handle (id : SlotId)
deriving DecidableEq

/-- The outcome of a collection. -/
structure CollectionReport where
  /-- The number of slots found reachable. -/
  marked : Nat := 0
  /-- The number of slots freed. -/
  freed : Nat := 0
deriving DecidableEq

namespace Arena

/-- The references in a live slot: to its value's handle, or from a handle to the slot and to the
members of its body. -/
def references (a : Arena) : Reference → List Reference
  | .slot id => (((a.get? id).bind (·.value.handle?)).map Reference.handle).toList
  | .handle id =>
    .slot id :: ((((a.get? id).bind (·.body)).map Body.members).getD []).map Reference.slot

/-- Every reference that can keep something: two to each live slot. -/
def allReferences (a : Arena) : List Reference :=
  a.liveSlots.flatMap fun id => [.slot id, .handle id]

/-- Follows references from the pending ones on and returns those of `unseen` that it never meets. -/
def unreached (a : Arena) (unseen : List Reference) : (pending : List Reference) → List Reference
  | [] => unseen
  | r :: pending =>
    if r ∈ unseen then unreached a (unseen.erase r) (a.references r ++ pending)
    else unreached a unseen pending
termination_by pending => (unseen.length, pending.length)
decreasing_by
  · have := List.length_erase_of_mem ‹r ∈ unseen›
    have := List.length_pos_of_mem ‹r ∈ unseen›
    exact Prod.Lex.left _ _ (by omega)
  · exact Prod.Lex.right _ (by simp)

/-- What remains of a slot when nothing meets the references in `unseen`. -/
def sweepSlot (unseen : List Reference) (id : SlotId) (slot : Slot) : Option Slot :=
  if .slot id ∈ unseen then none
  else if .handle id ∈ unseen then some { slot with body := none }
  else some slot

/-- The live slots that only `unseen` refers to. -/
def freed (a : Arena) (unseen : List Reference) : List SlotId :=
  a.liveSlots.filter (.slot · ∈ unseen)

/-- Frees what only `unseen` refers to. The highest freed id is the first to be reused. -/
def sweep (a : Arena) (unseen : List Reference) : Arena :=
  { a with
    slots := a.slots.mapIdx fun index entry => entry.bind (sweepSlot unseen ⟨index⟩)
    free := (a.freed unseen).reverse ++ a.free
    live := a.live - (a.freed unseen).length
    collections := a.collections + 1 }

theorem get?_sweep (a : Arena) (unseen : List Reference) (slot : SlotId) :
    (a.sweep unseen).get? slot = (a.get? slot).bind (sweepSlot unseen slot) := by
  simp only [sweep, get?, Array.getElem?_mapIdx]
  cases a.slots[slot.index]? with
  | none => rfl
  | some entry => cases entry <;> rfl

/-- Frees every slot, and drops every body, that the roots do not lead to. Does nothing where
reclamation is disabled. -/
def collect (a : Arena) (roots : List Reference) : CollectionReport × Arena :=
  match a.config.reclamation with
  | .disabled => ({}, a)
  | .markSweep =>
    let unseen := a.unreached a.allReferences roots
    let freed := (a.freed unseen).length
    (⟨a.liveSlots.length - freed, freed⟩, a.sweep unseen)

theorem collect_of_disabled {a : Arena} (h : a.config.reclamation = .disabled)
    (roots : List Reference) : a.collect roots = ({}, a) := by
  unfold collect
  rw [h]

theorem collect_of_markSweep {a : Arena} (h : a.config.reclamation = .markSweep)
    (roots : List Reference) :
    a.collect roots =
      (⟨a.liveSlots.length - (a.freed (a.unreached a.allReferences roots)).length,
        (a.freed (a.unreached a.allReferences roots)).length⟩,
        a.sweep (a.unreached a.allReferences roots)) := by
  unfold collect
  rw [h]

end Arena

end SlotScript
