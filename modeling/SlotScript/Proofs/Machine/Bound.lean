import SlotScript.Proofs.Arena.Frame
import SlotScript.Proofs.Machine.Sound
import SlotScript.Proofs.Machine.Stepwise

/-!
# Bound slots are live

A name that is bound stands for a value, whatever calls were made before, with plain expressions or not
(`Machine.anchored_after`). Evaluations and assignments leave the bindings alone and free no slot but in
collections, which keep what is bound; a declaration binds a slot that is live.
-/

namespace SlotScript

theorem ArenaM.isLive_of_bindingSlot {a a' : Arena} {outcome : Outcome} {id : SlotId} (h : a.Accounted)
    (hslot : bindingSlot outcome a = .ok id a') : a'.isLive id := by
  cases outcome with
  | fresh value => exact ((ends_ok hslot).mp (h.ends_allocWith _)).2.isLive
  | aliased slot =>
    obtain ⟨v, -, halloc⟩ := read_bind_eq_ok_iff.mp hslot
    exact ((ends_ok halloc).mp (h.ends_allocWith _)).2.isLive
  | minted slot =>
    obtain ⟨s, hget, ⟨⟩⟩ := read_bind_eq_ok_iff.mp hslot
    exact Arena.isLive_of_get? (Arena.get?_of_get hget)

namespace Machine

/-- The arena is in step, and every binding has a live slot. -/
structure Anchored (m : Machine) : Prop where
  accounted : m.arena.Accounted
  binding : ∀ slot ∈ m.bindings.slots, m.arena.isLive slot

/-- What keeps bound slots live. -/
def KeepsAnchored (m m' : Machine) : Prop := m.Anchored → m'.Anchored

instance : IsPreorder Machine KeepsAnchored where
  refl _ h := h
  trans _ _ _ hab hbc h := hbc (hab h)

variable {m : Machine}

theorem Anchored.of_grows (h : m.Anchored) {arena : Arena} (hgrows : m.arena.Grows arena) :
    Anchored { m with arena } :=
  ⟨(hgrows h.accounted).accounted, fun slot hslot => (hgrows h.accounted).isLive (h.binding slot hslot)⟩

theorem Anchored.collect (h : m.Anchored) : m.collect.2.Anchored :=
  ⟨(h.accounted.collect m.roots).accounted, fun slot hslot =>
    (Arena.keeps_collect m.arena (List.Subset.refl m.roots)).isLive
      (.root (slot_mem_roots hslot) (h.binding slot hslot))⟩

theorem Anchored.insert (h : m.Anchored) {slot : SlotId} (hslot : m.arena.isLive slot) (name : String) :
    Anchored { m with bindings := m.bindings.insert name slot } := by
  refine ⟨h.accounted, fun other hother => ?_⟩
  rcases NameTable.mem_slots_insert hother with rfl | hold
  · exact hslot
  · exact h.binding other hold

theorem Anchored.removeBinding (h : m.Anchored) (name : String) : (m.removeBinding name).2.Anchored := by
  have herased : Anchored { m with bindings := (m.bindings.getThenErase name).2 } :=
    ⟨h.accounted, fun slot hslot => h.binding slot (NameTable.mem_slots_getThenErase hslot)⟩
  cases hname : m.bindings.get? name with
  | none => rwa [removeBinding_of_none hname]
  | some slot =>
    rw [removeBinding_of_some hname]
    split
    · exact herased.collect
    · exact herased

end Machine

namespace MachineM

open Machine (Anchored KeepsAnchored)

theorem evaluating_keepsAnchored : Evaluating (Always KeepsAnchored) :=
  evaluating_always (fun _ _ hgrows h => h.of_grows hgrows) (fun _ h => h.collect)
    (fun _ _ h => ⟨h.accounted, h.binding⟩) fun hkeeps h => ⟨(hkeeps h).accounted, (hkeeps h).binding⟩

theorem always_keepsAnchored_declare (name : String) (initial : Option Expr) :
    Always KeepsAnchored (declare name initial) := by
  have hinitial := always_initialOutcome name fun e (_ : e ∈ initial) => evaluating_keepsAnchored.eval e
  refine hinitial.bind fun outcome m => ?_
  have hgrows := (ArenaM.grows.bindingSlot outcome).stateAfter m.arena
  rw [ends_bind, ends_onArena]
  unfold Ends
  cases hslot : ArenaM.bindingSlot outcome m.arena with
  | ok slot arena =>
    rw [stateAfter_of_ok hslot] at hgrows
    exact fun h => (h.of_grows hgrows).insert (ArenaM.isLive_of_bindingSlot h.accounted hslot) name
  | error e arena =>
    rw [stateAfter_of_error hslot] at hgrows
    exact fun h => h.of_grows hgrows

/-- No call frees a slot that is bound. -/
theorem always_keepsAnchored_perform (call : HostCall) : Always KeepsAnchored call.perform := by
  cases call with
  | declare name initial => exact (always_keepsAnchored_declare name initial).map
  | assign target value => exact (evaluating_keepsAnchored.assign target value).map
  | eval e => exact (evaluating_keepsAnchored.eval e).map
  | evalValue e => exact (evaluating_keepsAnchored.evalValue e).map
  | removeBinding name => exact fun m h => h.removeBinding name
  | collect => exact fun m h => h.collect

end MachineM

/-- **Bound slots are live** after any calls, with any expressions. -/
theorem Machine.anchored_after (config : MachineConfig) (calls : List HostCall) :
    ((new config).after calls).Anchored := by
  refine after_induction (Q := fun _ => True) ?_ ⟨Arena.accounted_new config.arena, List.forall_mem_nil _⟩
    fun _ _ => trivial
  intro call m _ h
  exact (MachineM.always_keepsAnchored_perform call).stateAfter m h

end SlotScript
