import SlotScript.Proofs.Arena.Failure
import SlotScript.Proofs.Machine.Bookkeeping
import SlotScript.Proofs.Machine.Evaluations
import SlotScript.Proofs.Machine.Safety

/-!
# Failed calls leave no trace

Whatever it ends in, an evaluation keeps the bindings and what they lead to (`Machine.Steps`): it only
adds slots, and collects what nothing refers to. A statement changes something only in its last step,
and that changes nothing if it fails (`ArenaM.Atomic`). So a statement that fails keeps all that as
well, wherever it fails (`MachineM.Withdraws`). What it leaves behind the next collection frees
(`failed_call_traceless`).
-/

namespace SlotScript

namespace MachineM

open Machine (Steps)

variable {m : Machine} {α β : Type}

/-- The operation takes steps of an evaluation, whatever it ends in. -/
def StepsOnly (act : MachineM α) : Prop :=
  ∀ ⦃m : Machine⦄, m.Sound → EndsVia Steps act m (fun _ _ => True) (¬ ·.isInternal)

theorem stepsOnly_pure (x : α) : StepsOnly (pure x) := fun _ h => endsVia_pure h.steps_refl trivial

theorem stepsOnly_toText {key : Expr} (hkey : key.Plain) :
    StepsOnly (Value.toText <$> evalValue key) := fun _ h =>
  (Evaluates.value (endsVia_eval hkey) h).map fun _ _ _ _ => trivial

/-- If the operation fails, the machine has only taken steps of an evaluation. -/
def Withdraws (act : MachineM α) (m : Machine) : Prop :=
  Ends act m (fun _ _ => True) fun _ m' => m.Steps m'

theorem withdraws_bind {act : MachineM α} {f : α → MachineM β} {ok : α → Machine → Prop}
    {error : MachineError → Prop} (h : EndsVia Steps act m ok error)
    (hf : ∀ x m', m.Steps m' → ok x m' → Withdraws (f x) m') : Withdraws (act >>= f) m := by
  unfold Withdraws
  rw [ends_bind]
  refine Ends.mono h (fun x m' hx => ?_) fun _ _ he => he.1
  exact (hf x m' hx.1 hx.2).mono (fun _ _ _ => trivial) fun _ _ he => trans_of Steps hx.1 he

theorem Withdraws.map {act : MachineM α} (h : Withdraws act m) (f : α → β) :
    Withdraws (f <$> act) m := by
  unfold Withdraws
  rw [ends_map]
  exact h

theorem Withdraws.releasing {act : MachineM α} (h : Withdraws act m) : Withdraws (releasing act) m := by
  unfold Withdraws
  rw [ends_releasing]
  exact Ends.mono h (fun _ _ _ => trivial) fun _ _ he => he.release

theorem withdraws_onArena (h : m.Sound) {act : ArenaM α} (hact : ArenaM.Atomic act m.arena) :
    Withdraws (onArena act) m := by
  unfold Withdraws
  rw [ends_onArena]
  cases hend : act m.arena with
  | ok x arena => exact (ends_ok hend).mpr trivial
  | error e arena =>
    obtain rfl := hact e arena hend
    exact (ends_error hend).mpr h.steps_refl

/-! ### Statements -/

theorem withdraws_declare (h : m.Sound) (name : String) {initial : Option Expr}
    (hinitial : ∀ e ∈ initial, e.Plain) : Withdraws (declare name initial) m := by
  refine withdraws_bind (endsVia_initialOutcome h name hinitial) fun o m₁ hsteps ho => ?_
  have hslot := ArenaM.endsVia_bindingSlot hsteps.sound.accounted hsteps.sound.closed ho
  exact withdraws_bind (endsVia_onArena hsteps.sound hslot) fun slot m₂ _ _ => trivial

theorem stepsOnly_locate {base : Expr} {property : MachineM String} (hbase : base.Plain)
    (hproperty : StepsOnly property) : StepsOnly (locate base property) := by
  intro m h
  refine (Evaluates.value (endsVia_eval hbase) h).bind fun v m₁ hsteps₁ hv => ?_
  refine (endsVia_holdValue hsteps₁.sound hv).bind fun _ m₂ hsteps₂ _ => ?_
  refine (hproperty hsteps₂.sound).bind fun key m₃ hsteps₃ _ => ?_
  refine (endsVia_checkBase hsteps₃.sound v key).bind fun _ m₄ hsteps₄ _ => ?_
  exact endsVia_pure hsteps₄.sound.steps_refl trivial

theorem withdraws_assignProperty {base value : Expr} {property : MachineM String}
    (hbase : base.Plain) (hproperty : StepsOnly property) (hvalue : value.Plain) (h : m.Sound) :
    Withdraws (assignProperty base property value) m := by
  rw [assignProperty_eq]
  refine withdraws_bind (stepsOnly_locate hbase hproperty h) fun place m₁ hsteps₁ _ => ?_
  refine withdraws_bind (endsVia_eval hvalue hsteps₁.sound) fun o m₂ hsteps₂ _ => ?_
  exact withdraws_onArena hsteps₂.sound
    (ArenaM.atomic_setProperty hsteps₂.sound.accounted place.1 place.2 o)

theorem withdraws_assign (h : m.Sound) {target value : Expr} (htarget : target.Plain)
    (hvalue : value.Plain) : Withdraws (assign target value) m := by
  cases htarget with
  | name name =>
    refine withdraws_bind (endsVia_lookup h name) fun slot m₁ hsteps₁ _ => ?_
    refine withdraws_bind (Evaluates.value (endsVia_eval hvalue) hsteps₁.sound) fun v m₂ hsteps₂ _ => ?_
    exact withdraws_onArena hsteps₂.sound (ArenaM.atomic_setValue slot v m₂.arena)
  | member hbase =>
    exact Withdraws.releasing (withdraws_assignProperty hbase (stepsOnly_pure _) hvalue h)
  | index hbase hkey =>
    exact Withdraws.releasing (withdraws_assignProperty hbase (stepsOnly_toText hkey) hvalue h)
  | _ => exact h.steps_refl

end MachineM

/-- The calls that only evaluate. -/
def HostCall.isEvaluation : HostCall → Bool
  | .eval _ | .evalValue _ => true
  | _ => false

namespace Machine

open MachineM

variable {m : Machine}

theorem steps_stateAfter {α : Type} {act : MachineM α} {ok : α → Machine → Prop}
    {error : MachineError → Prop} (h : EndsVia Steps act m ok error) (f : α → Reply) :
    m.Steps (stateAfter (f <$> act) m) := by
  refine Ends.stateAfter ?_
  rw [ends_map]
  exact Ends.mono h (fun _ _ hx => hx.1) fun _ _ he => he.1

/-- A call that only evaluates keeps what the bindings lead to, whatever it ends in. -/
theorem Sound.steps_evaluation (h : m.Sound) {call : HostCall} (hcall : call.Plain)
    (hevaluates : call.isEvaluation) : m.Steps (stateAfter call.perform m) := by
  cases call with
  | eval e => exact steps_stateAfter (endsVia_eval hcall h) _
  | evalValue e => exact steps_stateAfter (Evaluates.value (endsVia_eval hcall) h) _
  | _ => cases hevaluates

/-- A call that fails keeps what the bindings lead to. -/
theorem Sound.steps_failure (h : m.Sound) {call : HostCall} (hcall : call.Plain) {e : MachineError}
    {m' : Machine} (hfails : call.perform m = .error e m') : m.Steps (stateAfter call.perform m) := by
  have hsteps {act : MachineM Reply} (hact : Withdraws act m) (herror : act m = .error e m') :
      m.Steps (stateAfter act m) := by
    unfold stateAfter
    rw [herror]
    exact (ends_error herror).mp hact
  cases call with
  | declare name initial => exact hsteps ((withdraws_declare h name hcall).map _) hfails
  | assign target value => exact hsteps ((withdraws_assign h hcall.1 hcall.2).map _) hfails
  | eval e => exact h.steps_evaluation hcall rfl
  | evalValue e => exact h.steps_evaluation hcall rfl
  | removeBinding name => cases hfails
  | collect => cases hfails

/-- Calls with plain expressions lead to sound machines. -/
theorem sound_after (config : MachineConfig) {calls : List HostCall}
    (hcalls : ∀ call ∈ calls, call.Plain) : ((new config).after calls).Sound := by
  refine after_induction (fun hcall hm => ?_) (sound_new config) hcalls
  exact (Ends.mono (Sound.perform hm hcall) (fun _ _ hx => hx) fun _ _ he => he.1).stateAfter

/-- After steps that end with the temporaries as they were, a collection leaves what the machine
referred to before them. -/
theorem Steps.isLive_collect_iff {m' : Machine} (h : m.Sound) (hsteps : m.Steps m')
    (htemporaries : m'.temporaries = m.temporaries)
    (hpolicy : m'.arena.config.reclamation = .markSweep) (id : SlotId) :
    m'.collect.2.arena.isLive id ↔ m.arena.Reached m.roots (.slot id) := by
  have hroots : m'.roots = m.roots := by rw [roots, roots, hsteps.bindings_eq, htemporaries]
  have hcollect : m'.collect.2.arena = (m'.arena.collect m.roots).2 := by rw [← hroots]; rfl
  rw [hcollect, Arena.isLive_collect_iff hpolicy]
  exact hsteps.keeps.reached_iff h.closed fun _ hr => h.isLive_of_mem_roots hr

/-- **A call that fails leaves no lasting trace**, and neither does one that only evaluates, on every
machine that calls with plain expressions lead to. The bindings are the same; what they lead to is live
under the same ids, with the same values, and whole slots are the same where a handle leads. If the
machine reclaims, a collection right after the call leaves exactly the slots that the bindings led to
before it. -/
theorem failed_call_traceless (config : MachineConfig) (calls : List HostCall)
    (hcalls : ∀ call ∈ calls, call.Plain) (call : HostCall) (hcall : call.Plain) :
    let m := (new config).after calls
    let m' := stateAfter call.perform m
    let reached := m.arena.Reached (m.bindings.slots.map .slot)
    (call.isEvaluation ∨ ∃ e m₁, call.perform m = .error e m₁) →
      m'.bindings = m.bindings ∧
      (∀ id, reached (.slot id) → ∃ slot slot', m.arena.get? id = some slot ∧
        m'.arena.get? id = some slot' ∧ slot'.value = slot.value) ∧
      (∀ id, reached (.handle id) → m'.arena.get? id = m.arena.get? id) ∧
      (config.arena.reclamation = .markSweep →
        ∀ id, m'.collect.2.arena.isLive id ↔ reached (.slot id)) := by
  intro m m' reached hquiet
  have h : m.Sound := sound_after config hcalls
  have hsteps : m.Steps m' := by
    rcases hquiet with hevaluates | ⟨e, m₁, hfails⟩
    · exact h.steps_evaluation hcall hevaluates
    · exact h.steps_failure hcall hfails
  have htemporaries : m.temporaries = [] := temporaries_after config calls
  have hroots : m.roots = m.bindings.slots.map .slot := by
    rw [roots, htemporaries, List.append_nil]
  have hreached : m.arena.Reached m.roots = reached := congrArg m.arena.Reached hroots
  refine ⟨hsteps.bindings_eq, ?_, ?_, ?_⟩
  · intro id hid
    rw [← hreached] at hid
    obtain ⟨slot, hslot⟩ := hid.get?
    obtain ⟨slot', hslot', hvalue⟩ := hsteps.keeps.get?_value hid hslot
    exact ⟨slot, slot', hslot, hslot', hvalue⟩
  · intro id hid
    rw [← hreached] at hid
    exact hsteps.keeps.get?_eq hid
  · intro hpolicy id
    have hconfig : m'.arena.config = config.arena :=
      ((stepwise_advances.perform call).stateAfter m h.accounted).2.1.trans
        (accounted_after config calls).2
    rw [← hconfig] at hpolicy
    rw [← hreached]
    exact hsteps.isLive_collect_iff h
      ((always_sameTemporaries_perform call).stateAfter m) hpolicy id

/-- The inner array takes the last slot for its element and then fails. -/
theorem failed_call_traceless_exhausted :
    let config : MachineConfig := { arena := { capacity := 3, reclamation := .markSweep } }
    let calls : List HostCall := [.declare "o" (some (.object [("a", .literal .null)]))]
    let call : HostCall := .assign (.member (.name "o") "a") (.array [.array [.literal .null]])
    let m := (new config).after calls
    let m' := stateAfter call.perform m
    let reached := m.arena.Reached (m.bindings.slots.map .slot)
    ((∀ call ∈ calls, call.Plain) ∧ call.Plain ∧ ∃ e m₁, call.perform m = .error e m₁) ∧
      m'.bindings = m.bindings ∧
      (∀ id, reached (.slot id) → ∃ slot slot', m.arena.get? id = some slot ∧
        m'.arena.get? id = some slot' ∧ slot'.value = slot.value) ∧
      (∀ id, reached (.handle id) → m'.arena.get? id = m.arena.get? id) ∧
      ∀ id, m'.collect.2.arena.isLive id ↔ reached (.slot id) := by
  intro config calls call m m' reached
  have hcalls : ∀ call ∈ calls, call.Plain := by
    refine List.forall_mem_singleton.mpr ?_
    rintro e ⟨⟩
    exact .object (List.forall_mem_singleton.mpr (.literal rfl))
  have hcall : call.Plain := by
    refine ⟨.member (.name "o"), .array (List.forall_mem_singleton.mpr ?_)⟩
    exact .array (List.forall_mem_singleton.mpr (.literal rfl))
  have hfails : ∃ e m₁, call.perform m = .error e m₁ := ⟨_, _, rfl⟩
  obtain ⟨hbindings, hvalues, hslots, hcollected⟩ :=
    failed_call_traceless config calls hcalls call hcall (.inr hfails)
  exact ⟨⟨hcalls, hcall, hfails⟩, hbindings, hvalues, hslots, hcollected rfl⟩

end Machine

end SlotScript
