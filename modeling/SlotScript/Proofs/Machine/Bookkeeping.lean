import SlotScript.Proofs.Arena.Reachability
import SlotScript.Proofs.Machine.Stepwise

/-!
# What every call leaves in order

Two things that hold for all expressions, plain or not, and for calls that fail as well as for calls that
succeed. The arena stays in step, under the configuration that it had, and its table does not shrink
(`Arena.Advances`). What an evaluation holds it releases, so the temporaries are afterwards what they
were before (`always_sameTemporaries_perform`), and a collection between calls starts from the bindings
alone (`calls_release`).
-/

namespace SlotScript

/-- What operations do to an arena, collections included. -/
def Arena.Advances (a a' : Arena) : Prop :=
  a.Accounted → a'.Accounted ∧ a'.config = a.config ∧ a.slots.size ≤ a'.slots.size

theorem Arena.Grows.advances {a a' : Arena} (h : a.Grows a') : a.Advances a' := by
  intro ha
  have hgrown := h ha
  have hsize := hgrown.size_eq
  exact ⟨hgrown.accounted, hgrown.config_eq, by omega⟩

theorem Arena.advances_collect (a : Arena) (roots : List Reference) :
    a.Advances (a.collect roots).2 := by
  intro ha
  have hshrunk := ha.collect roots
  exact ⟨hshrunk.accounted, hshrunk.config_eq, hshrunk.size_eq.ge⟩

namespace Machine

/-- What steps of calls do to the arena of a machine. -/
def Advances (m m' : Machine) : Prop := m.arena.Advances m'.arena

instance : IsPreorder Machine Advances where
  refl _ h := ⟨h, rfl, Nat.le_refl _⟩
  trans _ _ _ hab hbc h := by
    obtain ⟨hb, hconfig, hsize⟩ := hab h
    obtain ⟨hc, hconfig', hsize'⟩ := hbc hb
    exact ⟨hc, hconfig'.trans hconfig, Nat.le_trans hsize hsize'⟩

/-- What steps of evaluations do to the temporaries. -/
def HoldsOn (m m' : Machine) : Prop := m.temporaries <:+ m'.temporaries

instance : IsPreorder Machine HoldsOn where
  refl _ := List.suffix_refl _
  trans _ _ _ hab hbc := hab.trans hbc

/-- The temporaries are the same. -/
def SameTemporaries (m m' : Machine) : Prop := m'.temporaries = m.temporaries

instance : IsPreorder Machine SameTemporaries where
  refl _ := rfl
  trans _ _ _ hab hbc := hbc.trans hab

theorem HoldsOn.sameTemporaries_release {m m' : Machine} (h : m.HoldsOn m') :
    m.SameTemporaries (m'.release m.temporaries.length) :=
  (List.suffix_iff_eq_drop.mp h).symm

theorem length_temporaries_release (m : Machine) (depth : Nat) :
    (m.release depth).temporaries.length ≤ depth := by
  simp only [release, List.length_drop]
  omega

end Machine

namespace MachineM

open Machine (Advances HoldsOn SameTemporaries)

theorem stepwise_advances : Stepwise (Always Advances) :=
  stepwise_always (fun _ _ h => h.advances) (fun m => m.arena.advances_collect m.roots)
    (fun m _ => refl_of Advances m) (fun m _ => refl_of Advances m) fun h => h

theorem stepwise_holdsOn : Stepwise (Always HoldsOn) :=
  stepwise_always (fun m _ _ => refl_of HoldsOn m) (fun m => refl_of HoldsOn m)
    (fun m _ => refl_of HoldsOn m) (fun _ r => List.suffix_cons r _)
    fun h => ⟨[], h.sameTemporaries_release.symm⟩

theorem always_sameTemporaries_releasing {α : Type} {act : MachineM α} (h : Always HoldsOn act) :
    Always SameTemporaries (releasing act) := by
  intro m
  rw [ends_releasing]
  exact (h m).mono (fun _ _ h => h.sameTemporaries_release) fun _ _ h => h.sameTemporaries_release

/-- Whatever it ends in, an evaluation leaves the temporaries as it found them: it only adds to them,
and releases what is above their first number. -/
theorem always_sameTemporaries_eval (e : Expr) : Always SameTemporaries (eval e) := by
  intro m
  have hlength : Ends (eval e) m
      (fun _ m' => m'.temporaries.length ≤ m.temporaries.length)
      (fun _ m' => m'.temporaries.length ≤ m.temporaries.length) := by
    obtain ⟨act, hact⟩ : ∃ act, eval e = releasing act := by
      cases e with
      | literal value => exact ⟨_, eval_literal value⟩
      | _ => exact ⟨_, by rw [eval]⟩
    rw [hact, ends_releasing]
    unfold Ends
    cases act m <;> exact Machine.length_temporaries_release _ _
  have heq {m' : Machine} (h : m.HoldsOn m' ∧ m'.temporaries.length ≤ m.temporaries.length) :
      m.SameTemporaries m' := (h.1.eq_of_length_le h.2).symm
  exact ((stepwise_holdsOn.eval e m).and hlength).mono (fun _ _ => heq) fun _ _ => heq

theorem always_sameTemporaries_evalValue (e : Expr) : Always SameTemporaries (evalValue e) :=
  (always_sameTemporaries_eval e).bind fun _ => always_reading _

theorem always_sameTemporaries_onArena {α : Type} (act : ArenaM α) :
    Always SameTemporaries (onArena act) := by
  intro m
  rw [ends_onArena]
  unfold Ends
  cases act m.arena <;> rfl

theorem always_sameTemporaries_declare (name : String) (initial : Option Expr) :
    Always SameTemporaries (declare name initial) := by
  have hinitial := always_initialOutcome name fun e (_ : e ∈ initial) => always_sameTemporaries_eval e
  exact hinitial.bind fun outcome => (always_sameTemporaries_onArena _).bind fun slot =>
    Always.bind (fun m => refl_of SameTemporaries m) fun _ => always_pure slot

theorem always_sameTemporaries_assign (target value : Expr) :
    Always SameTemporaries (assign target value) := by
  have hassign {property : MachineM String} (base : Expr) (hproperty : Always HoldsOn property) :
      Always SameTemporaries (releasing (assignProperty base property value)) :=
    always_sameTemporaries_releasing (stepwise_holdsOn.assignProperty base value hproperty)
  cases target with
  | name name =>
    refine Always.bind ?_ fun slot => (always_sameTemporaries_evalValue value).bind fun v =>
      always_sameTemporaries_onArena _
    intro m
    cases hname : m.bindings.get? name with
    | some slot => exact (ends_ok (lookup_eq_ok hname)).mpr rfl
    | none => exact (ends_error (lookup_eq_error hname)).mpr rfl
  | member base property => exact hassign base (always_pure property)
  | index base key =>
    exact hassign base (stepwise_holdsOn.map Value.toText (stepwise_holdsOn.evalValue key))
  | _ => exact fun m => refl_of SameTemporaries m

/-- No call leaves anything held. -/
theorem always_sameTemporaries_perform (call : HostCall) : Always SameTemporaries call.perform := by
  cases call with
  | declare name initial => exact (always_sameTemporaries_declare name initial).map
  | assign target value => exact (always_sameTemporaries_assign target value).map
  | eval e => exact (always_sameTemporaries_eval e).map
  | evalValue e => exact (always_sameTemporaries_evalValue e).map
  | removeBinding name =>
    intro m
    show (m.removeBinding name).2.temporaries = m.temporaries
    cases hname : m.bindings.get? name with
    | none => rw [Machine.removeBinding_of_none hname]
    | some slot =>
      rw [Machine.removeBinding_of_some hname]
      split <;> rfl
  | collect => exact fun m => rfl

end MachineM

namespace Machine

/-- The arena is in step after any calls, with any expressions. -/
theorem accounted_after (config : MachineConfig) (calls : List HostCall) :
    ((new config).after calls).arena.Accounted ∧
      ((new config).after calls).arena.config = config.arena := by
  refine after_induction (P := fun m => m.arena.Accounted ∧ m.arena.config = config.arena)
    (Q := fun _ => True) ?_ ⟨Arena.accounted_new config.arena, rfl⟩ fun _ _ => trivial
  rintro call m - ⟨hm, hconfig⟩
  obtain ⟨hm', hconfig', -⟩ := (MachineM.stepwise_advances.perform call).stateAfter m hm
  exact ⟨hm', hconfig'.trans hconfig⟩

/-- Between calls nothing is held. -/
theorem temporaries_after (config : MachineConfig) (calls : List HostCall) :
    ((new config).after calls).temporaries = [] := by
  refine after_induction (P := fun m => m.temporaries = []) (Q := fun _ => True) ?_ rfl
    fun _ _ => trivial
  intro call m _ hm
  exact ((MachineM.always_sameTemporaries_perform call).stateAfter m).trans hm

/-- With nothing held, a collection leaves the slots that the bindings lead to. -/
theorem isLive_collect_iff_of_temporaries {m : Machine} (htemporaries : m.temporaries = [])
    (hpolicy : m.arena.config.reclamation = .markSweep) (id : SlotId) :
    m.collect.2.arena.isLive id ↔ m.arena.Reached (m.bindings.slots.map .slot) (.slot id) := by
  have hroots : m.roots = m.bindings.slots.map .slot := by rw [roots, htemporaries, List.append_nil]
  rw [← hroots]
  exact Arena.isLive_collect_iff hpolicy

/-- With nothing held and nothing bound, a collection leaves nothing. -/
theorem live_collect_eq_zero {m : Machine} (haccounted : m.arena.Accounted)
    (htemporaries : m.temporaries = []) (hpolicy : m.arena.config.reclamation = .markSweep)
    (hempty : m.bindings.isEmpty) : m.collect.2.arena.live = 0 := by
  have hlength : m.collect.2.arena.liveSlots.length = m.collect.2.arena.live :=
    (haccounted.collect m.roots).accounted.length_liveSlots
  rw [← hlength, List.length_eq_zero_iff, List.eq_nil_iff_forall_not_mem]
  intro id hid
  have hreached := (isLive_collect_iff_of_temporaries htemporaries hpolicy id).mp
    (Arena.mem_liveSlots.mp hid)
  rw [NameTable.slots, List.isEmpty_iff.mp hempty] at hreached
  exact Arena.not_reached_nil _ _ hreached

/-- **What calls hold they release**, in every state, for every expression, and however they end. So
nothing is held between calls, and if the machine reclaims, a collection then leaves exactly the slots
that the bindings lead to: none, once nothing is bound. -/
theorem calls_release (config : MachineConfig) (calls : List HostCall) :
    (∀ m : Machine,
      (∀ e, (stateAfter (MachineM.eval e) m).temporaries = m.temporaries) ∧
      (∀ e, (stateAfter (MachineM.evalValue e) m).temporaries = m.temporaries) ∧
      (∀ name initial, (stateAfter (MachineM.declare name initial) m).temporaries = m.temporaries) ∧
      ∀ target value, (stateAfter (MachineM.assign target value) m).temporaries = m.temporaries) ∧
    let m := (new config).after calls
    m.temporaries = [] ∧
    (config.arena.reclamation = .markSweep →
      (∀ id, m.collect.2.arena.isLive id ↔
        m.arena.Reached (m.bindings.slots.map .slot) (.slot id)) ∧
      (m.bindings.isEmpty → m.collect.2.arena.live = 0)) := by
  refine ⟨fun m => ⟨?_, ?_, ?_, ?_⟩, ?_⟩
  · exact fun e => (MachineM.always_sameTemporaries_eval e).stateAfter m
  · exact fun e => (MachineM.always_sameTemporaries_evalValue e).stateAfter m
  · exact fun name initial => (MachineM.always_sameTemporaries_declare name initial).stateAfter m
  · exact fun target value => (MachineM.always_sameTemporaries_assign target value).stateAfter m
  have htemporaries := temporaries_after config calls
  obtain ⟨haccounted, hconfig⟩ := accounted_after config calls
  refine ⟨htemporaries, fun hpolicy => ?_⟩
  rw [← hconfig] at hpolicy
  exact ⟨isLive_collect_iff_of_temporaries htemporaries hpolicy,
    live_collect_eq_zero haccounted htemporaries hpolicy⟩

/-- An array is half built, with its first element held, when the second one fails. -/
theorem calls_release_failing :
    let config : MachineConfig := { arena := { reclamation := .markSweep } }
    let calls : List HostCall :=
      [.declare "a" (some (.array [.array []])),
        .assign (.index (.name "a") (.literal (.text "x"))) (.array [.object [], .name "b"]),
        .removeBinding "a"]
    let m := (new config).after calls
    (config.arena.reclamation = .markSweep ∧ m.bindings.isEmpty) ∧
      (stateAfter (MachineM.eval (.array [.object [], .name "b"])) m).temporaries = [] ∧
      m.arena.live = 3 ∧ m.collect.2.arena.live = 0 := by
  intro config calls m
  obtain ⟨hrelease, htemporaries, hcollect⟩ := calls_release config calls
  have hempty : m.bindings.isEmpty := by decide +kernel
  have hlive : m.arena.live = 3 := by decide +kernel
  simp only [m] at hempty hlive ⊢
  refine ⟨⟨rfl, hempty⟩, ?_, hlive, (hcollect rfl).2 hempty⟩
  exact ((hrelease _).1 _).trans htemporaries

end Machine

end SlotScript
