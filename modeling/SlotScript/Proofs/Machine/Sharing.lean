import SlotScript.Proofs.Arena.Sharing
import SlotScript.Proofs.Machine.Bookkeeping

/-!
# Names and members that share a slot

`Machine.Shares m name base key slot`: the name is bound to the slot to which the key leads. What is set
through one of them is then read through the other. A name keeps its slot until it is declared again or
removed (`Machine.get?_bindings_after`), and a member keeps its slot as long as the body stays and the
element is not cut off. Each call of the host does to the arena what some calls of arena operations do
(`Machine.Runs`), so a name and a member that share a slot keep sharing it (`members_keep_slots`).
-/

namespace SlotScript

namespace Machine

/-- Calls of arena operations lead from the arena of the one machine to that of the other. -/
def Runs (m m' : Machine) : Prop := ∃ trace, m'.arena = m.arena.run trace

instance : IsPreorder Machine Runs where
  refl _ := ⟨[], rfl⟩
  trans _ _ _ hab hbc := by
    obtain ⟨trace, hb⟩ := hab
    obtain ⟨trace', hc⟩ := hbc
    exact ⟨trace ++ trace', by rw [Arena.run_append, ← hb, hc]⟩

/-- The bindings are the same. -/
def SameBindings (m m' : Machine) : Prop := m'.bindings = m.bindings

instance : IsPreorder Machine SameBindings where
  refl _ := rfl
  trans _ _ _ hab hbc := hbc.trans hab

end Machine

namespace MachineM

open Machine (Runs SameBindings)

theorem stepwise_runs : Stepwise (Always Runs) :=
  stepwise_always (fun _ call _ => ⟨[call], rfl⟩) (fun m => ⟨[.collect m.roots], rfl⟩)
    (fun m _ => refl_of Runs m) (fun m _ => refl_of Runs m) fun h => h

/-- Evaluations and assignments leave the bindings alone. -/
theorem evaluating_sameBindings : Evaluating (Always SameBindings) :=
  evaluating_always (fun _ _ _ => rfl) (fun _ => rfl) (fun _ _ => rfl) fun h => h

/-- A declaration binds the name to the slot that it returns, and changes no binding if it fails. -/
theorem ends_declare (name : String) (initial : Option Expr) (m : Machine) :
    Ends (declare name initial) m (fun slot m' => m'.bindings = m.bindings.insert name slot)
      (fun _ m' => m'.bindings = m.bindings) := by
  rw [declare, ends_bind]
  have hinitial := always_initialOutcome name fun e (_ : e ∈ initial) => evaluating_sameBindings.eval e
  refine (hinitial m).mono (fun outcome m₁ hsame => ?_) fun _ _ hsame => hsame
  rw [ends_bind, ends_onArena]
  unfold Ends
  cases ArenaM.bindingSlot outcome m₁.arena with
  | ok slot arena => exact congrArg (·.insert name slot) hsame
  | error e arena => exact hsame

end MachineM

/-- The call gives the name another slot, or none. -/
def HostCall.Rebinds (m : Machine) (name : String) : HostCall → Prop
  | .declare other initial =>
    other = name ∧ ∃ slot m', MachineM.declare other initial m = .ok slot m'
  | .removeBinding other => other = name
  | _ => False

/-- A name keeps its slot through every other call. -/
theorem HostCall.get?_bindings_perform {m : Machine} {name : String} {call : HostCall}
    (h : ¬ call.Rebinds m name) :
    (stateAfter call.perform m).bindings.get? name = m.bindings.get? name := by
  cases call with
  | declare other initial =>
    have hends := MachineM.ends_declare other initial m
    cases hact : MachineM.declare other initial m with
    | ok slot m' =>
      have hne : name ≠ other := fun heq => h ⟨heq.symm, slot, m', hact⟩
      have hafter : stateAfter (HostCall.declare other initial).perform m = m' :=
        stateAfter_of_ok (map_eq_ok_iff.mpr ⟨slot, hact, rfl⟩)
      rw [hafter, (ends_ok hact).mp hends, NameTable.get?_insert, if_neg hne]
    | error e m' =>
      have hafter : stateAfter (HostCall.declare other initial).perform m = m' :=
        stateAfter_of_error (map_eq_error_iff.mpr hact)
      rw [hafter, (ends_error hact).mp hends]
  | assign target value =>
    exact congrArg (·.get? name)
      ((MachineM.evaluating_sameBindings.assign target value).map.stateAfter m)
  | eval e =>
    exact congrArg (·.get? name) ((MachineM.evaluating_sameBindings.eval e).map.stateAfter m)
  | evalValue e =>
    exact congrArg (·.get? name) ((MachineM.evaluating_sameBindings.evalValue e).map.stateAfter m)
  | removeBinding other =>
    show (m.removeBinding other).2.bindings.get? name = _
    cases hother : m.bindings.get? other with
    | none => rw [Machine.removeBinding_of_none hother]
    | some slot =>
      have herased : (m.bindings.getThenErase other).2.get? name = m.bindings.get? name := by
        rw [NameTable.get?_getThenErase, if_neg fun heq => h heq.symm]
      rw [Machine.removeBinding_of_some hother]
      split <;> exact herased
  | collect => rfl

namespace Machine

/-- One of the calls gives the name another slot, or none. -/
def ReboundDuring (m : Machine) (name : String) : List HostCall → Prop
  | [] => False
  | call :: calls =>
    call.Rebinds m name ∨ (stateAfter call.perform m).ReboundDuring name calls

theorem get?_bindings_after {m : Machine} {name : String} {calls : List HostCall}
    (h : ¬ m.ReboundDuring name calls) : (m.after calls).bindings.get? name = m.bindings.get? name := by
  induction calls generalizing m with
  | nil => rfl
  | cons call calls ih =>
    rw [ReboundDuring, not_or] at h
    exact (ih h.2).trans (HostCall.get?_bindings_perform h.1)

theorem runs_after (m : Machine) (calls : List HostCall) : m.Runs (m.after calls) := by
  induction calls generalizing m with
  | nil => exact refl_of Runs m
  | cons call calls ih =>
    exact trans_of Runs ((MachineM.stepwise_runs.perform call).stateAfter m) (ih _)

/-- The name is bound to the slot to which the key leads. -/
structure Shares (m : Machine) (name : String) (base : Value) (key : String) (slot : SlotId) : Prop where
  bound : m.bindings.get? name = some slot
  member : m.arena.getProperty base key = .ok (.aliased slot)

variable {m : Machine} {name key : String} {base : Value} {slot : SlotId}

/-- Reading the name and reading the property come to the same. -/
theorem Shares.resultOf_eq (h : m.Shares name base key slot) :
    resultOf (MachineM.valueOf name) m =
      resultOf (MachineM.reading (·.getProperty base key) >>= MachineM.resolve) m := by
  have hname : MachineM.valueOf name m = MachineM.reading (·.value slot) m :=
    bind_eq_of_ok (MachineM.lookup_eq_ok h.bound)
  have hmember : (MachineM.reading (·.getProperty base key) >>= MachineM.resolve) m =
      MachineM.reading (·.value slot) m :=
    (bind_eq_of_ok (MachineM.reading_eq_ok h.member)).trans rfl
  rw [resultOf, resultOf, hname, hmember]

/-- What is set through the name is read through the key. -/
theorem Shares.setValue (h : m.Shares name base key slot) {value : Value} {arena : Arena}
    (hact : ArenaM.setValue slot value m.arena = .ok () arena) :
    arena.getProperty base key = .ok (.aliased slot) ∧ arena.value slot = .ok value := by
  obtain ⟨hlive, rfl⟩ := ArenaM.eq_of_setValue hact
  exact ⟨Arena.getProperty_withValue h.member slot value, Arena.value_withValue_self hlive value⟩

/-- What is set through the key is read through the name. -/
theorem Shares.setProperty (h : m.Shares name base key slot) (ha : m.arena.Accounted)
    {outcome : Outcome} {arena : Arena}
    (hact : ArenaM.setProperty base key outcome m.arena = .ok () arena) :
    ∃ value, m.arena.resolve outcome = .ok value ∧
      arena.getProperty base key = .ok (.aliased slot) ∧ arena.value slot = .ok value := by
  obtain ⟨value, hvalue, hlive, rfl⟩ := ha.setProperty_aliased h.member hact
  exact ⟨value, hvalue, Arena.getProperty_withValue h.member slot value,
    Arena.value_withValue_self hlive value⟩

/-- **Members keep their slots.** In every run of arena operations, as long as a slot keeps its body,
properties are only added after those that are there, and an element keeps its slot until the length is
set to its index or less. What calls of the host do to the arena is such a run. So a name and a member
that share a slot share it, and each shows what is set through the other, until the name is declared again
or removed or the element is cut off. -/
theorem members_keep_slots (config : MachineConfig) :
    (∀ (calls calls' : List ArenaCall) (owner : SlotId) (b b' : Body),
      let a := (Arena.new config.arena).run calls
      (∀ s ∈ a.states calls', ∃ body, s.body owner = .ok body) → a.body owner = .ok b →
        (a.run calls').body owner = .ok b' → b.Retains (a.CutDuring owner · calls') b') ∧
    ∀ calls calls' : List HostCall,
      let m := (new config).after calls
      let m' := m.after calls'
      m.Runs m' ∧
      ∀ name base owner key slot trace, m.Shares name base key slot → base.handle? = some owner →
        ¬ m.ReboundDuring name calls' → m'.arena = m.arena.run trace →
        (∀ s ∈ m.arena.states trace, ∃ body, s.body owner = .ok body) →
        (∀ index, arrayIndex? key = some index → ¬ m.arena.CutDuring owner index trace) →
          m'.Shares name base key slot ∧
          resultOf (MachineM.valueOf name) m' =
            resultOf (MachineM.reading (·.getProperty base key) >>= MachineM.resolve) m' ∧
          (∀ value arena, ArenaM.setValue slot value m'.arena = .ok () arena →
            arena.getProperty base key = .ok (.aliased slot) ∧ arena.value slot = .ok value) ∧
          ∀ outcome arena, ArenaM.setProperty base key outcome m'.arena = .ok () arena →
            ∃ value, m'.arena.resolve outcome = .ok value ∧
              arena.getProperty base key = .ok (.aliased slot) ∧ arena.value slot = .ok value := by
  refine ⟨fun calls calls' owner b b' hstays hb hb' => ?_, fun calls calls' => ⟨?_, ?_⟩⟩
  · exact ((Arena.accounted_new config.arena).accounted_run calls).retains_run hstays hb hb'
  · exact runs_after _ calls'
  · intro name base owner key slot trace hshares howner hbound hrun hstays hcut
    have ha := (accounted_after config calls).1
    have ha' : (((new config).after calls).after calls').arena.Accounted := by
      rw [hrun]
      exact ha.accounted_run trace
    have hshares' : (((new config).after calls).after calls').Shares name base key slot := by
      refine ⟨(get?_bindings_after hbound).trans hshares.bound, ?_⟩
      rw [hrun]
      exact ha.getProperty_run howner hshares.member hstays hcut
    exact ⟨hshares', hshares'.resultOf_eq, fun _ _ => hshares'.setValue,
      fun _ _ => hshares'.setProperty ha'⟩

/-- The first element of `a` and the name `x` share a slot. Assigning to `x`, adding an element, a
collection and assigning to the first element leave it so. -/
theorem members_keep_slots_element :
    let element (key : String) : Expr := .index (.name "a") (.literal (.text key))
    let m := (new {}).after
      [.declare "x" (some (.literal .null)), .declare "a" (some (.array [.name "x"]))]
    let calls' : List HostCall :=
      [.assign (.name "x") (.literal (.text "t")), .assign (element "2") (.literal .null), .collect,
        .assign (element "0") (.literal (.boolean true))]
    let m' := m.after calls'
    let base : Value := .compound .array ⟨1⟩
    let trace : List ArenaCall :=
      [.setValue ⟨0⟩ (.text "t"), .setProperty base "2" (.fresh .null), .collect [],
        .setProperty base "0" (.fresh (.boolean true))]
    (m.Shares "x" base "0" ⟨0⟩ ∧ base.handle? = some ⟨1⟩ ∧ ¬ m.ReboundDuring "x" calls' ∧
      m'.arena = m.arena.run trace ∧ (∀ s ∈ m.arena.states trace, ∃ body, s.body ⟨1⟩ = .ok body) ∧
      ∀ index, arrayIndex? "0" = some index → ¬ m.arena.CutDuring ⟨1⟩ index trace) ∧
    m'.Shares "x" base "0" ⟨0⟩ ∧
      resultOf (MachineM.valueOf "x") m' =
        resultOf (MachineM.reading (·.getProperty base "0") >>= MachineM.resolve) m' := by
  intro element m calls' m' base trace
  have hshares : m.Shares "x" base "0" ⟨0⟩ := ⟨by decide +kernel, by decide +kernel⟩
  have hbound : ¬ m.ReboundDuring "x" calls' := by
    rintro (h | h | h | h | h) <;> exact h
  have hrun : m'.arena = m.arena.run trace := by decide +kernel
  have hstays : ∀ s ∈ m.arena.states trace, ∃ body, s.body ⟨1⟩ = .ok body := by
    have hok : ∀ s ∈ m.arena.states trace, (s.body ⟨1⟩).isOk := by decide +kernel
    intro s hs
    cases hbody : s.body ⟨1⟩ with
    | ok body => exact ⟨body, rfl⟩
    | error e =>
      have hs := hok s hs
      rw [hbody] at hs
      cases hs
  have hcut : ∀ index, arrayIndex? "0" = some index → ¬ m.arena.CutDuring ⟨1⟩ index trace := by
    have hkey {key : String} {outcome outcome' : Outcome} {base' : Value} (hne : key ≠ lengthKey)
        (h : ArenaCall.setProperty base key outcome = .setProperty base' lengthKey outcome') : False := by
      injection h with _ heq
      exact hne heq
    rintro index - (⟨_, _, _, _, _, h, -⟩ | ⟨_, _, _, _, _, h, -⟩ | ⟨_, _, _, _, _, h, -⟩ |
      ⟨_, _, _, _, _, h, -⟩ | h)
    · cases h
    · exact hkey (by decide) h
    · cases h
    · exact hkey (by decide) h
    · exact h
  obtain ⟨-, hkeep⟩ := (members_keep_slots {}).2
    [.declare "x" (some (.literal .null)), .declare "a" (some (.array [.name "x"]))] calls'
  obtain ⟨hshares', hread, -⟩ :=
    hkeep "x" base ⟨1⟩ "0" ⟨0⟩ trace hshares rfl hbound hrun hstays hcut
  exact ⟨⟨hshares, rfl, hbound, hrun, hstays, hcut⟩, hshares', hread⟩

end Machine

end SlotScript
