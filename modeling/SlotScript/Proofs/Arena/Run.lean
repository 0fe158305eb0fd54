import SlotScript.Proofs.Ends

/-!
# Runs of arena operations

`ArenaCall` lists the operations that change an arena, with their arguments. Arguments are not
restricted: slots need not be live, handles need not lead to a body. `Arena.after` is the arena that a
call leaves, whether it succeeds or fails, and `Arena.run` goes through the calls in turn.
-/

namespace SlotScript

/-- A call of an operation that changes an arena. -/
inductive ArenaCall where
  | alloc (value : Value)
  | allocBody (body : Body)
  | setValue (slot : SlotId) (value : Value)
  | bindingSlot (outcome : Outcome)
  | memberSlot (outcome : Outcome)
  | build (container : NewContainer)
  | setProperty (base : Value) (key : String) (outcome : Outcome)
  /-- A collection from the values stored in some slots. -/
  | collectSlots (slots : List SlotId)
  | collect (roots : List Reference)

namespace Arena

/-- An arena without slots. -/
def new (config : ArenaConfig) : Arena := { config }

/-- The arena after a call. -/
def after (a : Arena) : ArenaCall → Arena
  | .alloc value => stateAfter (ArenaM.alloc value) a
  | .allocBody body => stateAfter (ArenaM.allocBody body) a
  | .setValue slot value => stateAfter (ArenaM.setValue slot value) a
  | .bindingSlot outcome => stateAfter (ArenaM.bindingSlot outcome) a
  | .memberSlot outcome => stateAfter (ArenaM.memberSlot outcome) a
  | .build container => stateAfter (ArenaM.build container) a
  | .setProperty base key outcome => stateAfter (ArenaM.setProperty base key outcome) a
  | .collectSlots slots => (a.collect (slots.map .slot)).2
  | .collect roots => (a.collect roots).2

/-- The number of slots that a call reports as freed. -/
def freedBy (a : Arena) : ArenaCall → Nat
  | .collectSlots slots => (a.collect (slots.map .slot)).1.freed
  | .collect roots => (a.collect roots).1.freed
  | _ => 0

/-- The arena after some calls. -/
def run (a : Arena) (calls : List ArenaCall) : Arena := calls.foldl after a

/-- The arenas that a run passes through, from the first to the last. -/
def states (a : Arena) (calls : List ArenaCall) : List Arena := calls.scanl after a

/-- The number of slots that the collections of a run free. -/
def freedDuring (a : Arena) : List ArenaCall → Nat
  | [] => 0
  | call :: calls => a.freedBy call + (a.after call).freedDuring calls

@[simp] theorem run_nil (a : Arena) : a.run [] = a := rfl

@[simp] theorem run_cons (a : Arena) (call : ArenaCall) (calls : List ArenaCall) :
    a.run (call :: calls) = (a.after call).run calls := rfl

@[simp] theorem states_nil (a : Arena) : a.states [] = [a] := rfl

@[simp] theorem states_cons (a : Arena) (call : ArenaCall) (calls : List ArenaCall) :
    a.states (call :: calls) = a :: (a.after call).states calls := by
  simp only [states, List.scanl_cons]

theorem mem_states_self (a : Arena) (calls : List ArenaCall) : a ∈ a.states calls := by
  cases calls <;> simp

theorem run_mem_states (a : Arena) (calls : List ArenaCall) : a.run calls ∈ a.states calls := by
  induction calls generalizing a with
  | nil => exact List.mem_singleton_self a
  | cons call calls ih =>
    rw [states_cons]
    exact List.mem_cons_of_mem a (ih (a.after call))

theorem run_append (a : Arena) (calls more : List ArenaCall) :
    a.run (calls ++ more) = (a.run calls).run more := List.foldl_append

/-- A property of all arenas that calls can lead to: of the new one, and kept by every call. -/
theorem run_induction {P : Arena → Prop} (hstep : ∀ a call, P a → P (a.after call)) {a : Arena}
    (h : P a) (calls : List ArenaCall) : P (a.run calls) := by
  induction calls generalizing a with
  | nil => exact h
  | cons call calls ih => exact ih (hstep a call h)

end Arena

end SlotScript
