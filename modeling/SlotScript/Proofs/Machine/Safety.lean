import SlotScript.Proofs.Machine.Sound

/-!
# Sessions come across nothing that is gone

Every call of a session keeps a machine sound, whether it succeeds or fails. Inside a statement an
evaluation takes `Steps`; the write at its end only has to leave the machine sound, as nothing follows
it. `session_intact` says what this means for the host.
-/

namespace SlotScript

/-- What a machine refers to is there: the slots of the bindings, the body behind the handle in a slot,
and the members of a body. -/
structure Machine.Intact (m : Machine) : Prop where
  binding : ∀ name slot, m.bindings.get? name = some slot → m.arena.isLive slot
  value : ∀ id slot shape owner, m.arena.get? id = some slot → slot.value = .compound shape owner →
    ∃ slot' body, m.arena.get? owner = some slot' ∧ slot'.body = some body ∧ body.shape = shape
  member : ∀ id slot body member, m.arena.get? id = some slot → slot.body = some body →
    member ∈ body.members → m.arena.isLive member

theorem Machine.Sound.intact {m : Machine} (h : m.Sound) : m.Intact where
  binding _ _ hname := h.binding _ (NameTable.mem_slots_of_get? hname)
  value _ _ shape owner hslot hvalue := by
    have hvalid := h.closed.value hslot
    rw [hvalue] at hvalid
    obtain ⟨slot', hslot', hshape⟩ := Option.bind_eq_some_iff.mp hvalid
    obtain ⟨body, hbody, heq⟩ := Option.map_eq_some_iff.mp hshape
    exact ⟨slot', body, hslot', hbody, heq⟩
  member _ _ _ _ hslot hbody hmem := h.closed.member hslot hbody _ hmem

namespace MachineM

open Machine (Steps)

variable {m : Machine} {α β : Type}

/-- Whatever the end of `act`, the machine is sound there; an error is none of the internal ones. -/
def Lands (act : MachineM α) (m : Machine) : Prop :=
  Ends act m (fun _ m' => m'.Sound) fun e m' => m'.Sound ∧ ¬ e.isInternal

theorem lands_of_endsVia {act : MachineM α} {ok : α → Machine → Prop}
    (h : EndsVia Steps act m ok (¬ ·.isInternal)) : Lands act m :=
  Ends.mono h (fun _ _ hx => hx.1.sound) fun _ _ he => ⟨he.1.sound, he.2⟩

theorem lands_bind {act : MachineM α} {f : α → MachineM β} {ok : α → Machine → Prop}
    (h : EndsVia Steps act m ok (¬ ·.isInternal))
    (hf : ∀ x m', m.Steps m' → ok x m' → Lands (f x) m') : Lands (act >>= f) m := by
  unfold Lands
  rw [ends_bind]
  exact Ends.mono h (fun x m' hx => hf x m' hx.1 hx.2) fun _ _ he => ⟨he.1.sound, he.2⟩

theorem Lands.map {act : MachineM α} (h : Lands act m) (f : α → β) : Lands (f <$> act) m := by
  unfold Lands
  rw [ends_map]
  exact h

theorem Lands.releasing {act : MachineM α} (h : Lands act m) : Lands (releasing act) m := by
  unfold Lands
  rw [ends_releasing]
  exact Ends.mono h (fun _ _ hx => hx.release _) fun _ _ he => ⟨he.1.release _, he.2⟩

/-- A write keeps a machine sound. -/
theorem lands_onArena (h : m.Sound) {act : ArenaM α} {ok : α → Arena → Prop}
    (hact : EndsVia Arena.Kept act m.arena ok (¬ ·.isInternal)) : Lands (onArena act) m := by
  unfold Lands
  rw [ends_onArena]
  exact Ends.mono hact (fun _ _ hx => h.of_kept hx.1) fun _ _ he => ⟨h.of_kept he.1, he.2⟩

/-! ### Statements -/

theorem endsVia_initialOutcome (h : m.Sound) (name : String) {initial : Option Expr}
    (hinitial : ∀ e ∈ initial, e.Plain) :
    EndsVia Steps (initialOutcome name initial) m (fun o m' => o.ValidIn m'.arena)
      (¬ ·.isInternal) := by
  cases initial with
  | some e => exact endsVia_eval (hinitial e rfl) h
  | none =>
    unfold initialOutcome
    apply endsVia_bind_of_ok rfl
    cases hname : m.bindings.get? name with
    | some slot =>
      exact endsVia_pure h.steps_refl (h.binding slot (NameTable.mem_slots_of_get? hname))
    | none => exact endsVia_pure h.steps_refl trivial

theorem lands_declare (h : m.Sound) (name : String) {initial : Option Expr}
    (hinitial : ∀ e ∈ initial, e.Plain) : Lands (declare name initial) m := by
  apply lands_bind (endsVia_initialOutcome h name hinitial)
  intro o m₁ hsteps₁ ho
  have hslot := ArenaM.endsVia_bindingSlot hsteps₁.sound.accounted hsteps₁.sound.closed ho
  apply lands_bind (endsVia_onArena hsteps₁.sound hslot)
  intro slot m₂ hsteps₂ hlive
  exact hsteps₂.sound.insert name hlive

theorem lands_assignProperty {base value : Expr} {property : MachineM String} (hbase : base.Plain)
    (hproperty : ∀ {m : Machine}, m.Sound →
      EndsVia Steps property m (fun _ _ => True) (¬ ·.isInternal))
    (hvalue : value.Plain) (h : m.Sound) : Lands (assignProperty base property value) m := by
  apply lands_bind (Evaluates.value (endsVia_eval hbase) h)
  intro v m₁ hsteps₁ hv
  apply lands_bind (endsVia_holdValue hsteps₁.sound hv)
  rintro _ _ hsteps₂ rfl
  apply lands_bind (hproperty hsteps₂.sound)
  intro key m₃ hsteps₃ _
  apply lands_bind (endsVia_checkBase hsteps₃.sound v key)
  rintro _ _ hsteps₄ rfl
  apply lands_bind (endsVia_eval hvalue hsteps₄.sound)
  intro o m₅ hsteps₅ ho
  have hvalid := (trans_of Steps hsteps₃ hsteps₅).outcome_validIn hv
  exact lands_onArena hsteps₅.sound
    (ArenaM.endsVia_setProperty hsteps₅.sound.accounted hsteps₅.sound.closed key hvalid ho)

theorem lands_assign (h : m.Sound) {target value : Expr} (htarget : target.Plain)
    (hvalue : value.Plain) : Lands (assign target value) m := by
  cases htarget with
  | name name =>
    apply lands_bind (endsVia_lookup h name)
    rintro slot _ _ ⟨rfl, hslot⟩
    apply lands_bind (Evaluates.value (endsVia_eval hvalue) h)
    intro v m₁ hsteps hv
    rw [← hsteps.bindings_eq] at hslot
    exact lands_onArena hsteps.sound (ArenaM.endsVia_setValue hsteps.sound.accounted
      hsteps.sound.closed (hsteps.sound.binding slot hslot) hv)
  | member hbase =>
    refine Lands.releasing (lands_assignProperty hbase (fun hsound => ?_) hvalue h)
    exact endsVia_pure hsound.steps_refl trivial
  | index hbase hkey =>
    refine Lands.releasing (lands_assignProperty hbase (fun hsound => ?_) hvalue h)
    exact (Evaluates.value (endsVia_eval hkey) hsound).map fun _ _ _ _ => trivial
  | _ => exact ⟨h, Bool.false_ne_true⟩

end MachineM

namespace Machine

variable {m : Machine}

theorem Sound.removeBinding (h : m.Sound) (name : String) : (m.removeBinding name).2.Sound := by
  cases hname : m.bindings.get? name with
  | none => rwa [removeBinding_of_none hname]
  | some slot =>
    rw [removeBinding_of_some hname]
    split
    · exact (h.erase name).steps_collect.sound
    · exact h.erase name

open MachineM in
/-- Each call keeps a machine sound. -/
theorem Sound.perform (h : m.Sound) {call : HostCall} (hcall : call.Plain) :
    Lands call.perform m := by
  cases call with
  | declare name initial => exact (lands_declare h name hcall).map _
  | assign target value => exact (lands_assign h hcall.1 hcall.2).map _
  | eval e => exact (lands_of_endsVia (endsVia_eval hcall h)).map _
  | evalValue e => exact (lands_of_endsVia (Evaluates.value (endsVia_eval hcall) h)).map _
  | removeBinding name => exact h.removeBinding name
  | collect => exact h.steps_collect.sound

/-- **No call of a session comes across a reference that leads nowhere**, under any configuration and
wherever collections run, and what the machine refers to is there after each call. -/
theorem session_intact (config : MachineConfig) (calls : List HostCall)
    (hcalls : ∀ call ∈ calls, call.Plain) :
    ∀ step ∈ (new config).session calls,
      (∀ slot, step.1 ≠ .error (.arena (.danglingSlot slot)) ∧
        step.1 ≠ .error (.arena (.notAContainer slot))) ∧ step.2.Intact := by
  intro step hstep
  have hkeep (call : HostCall) (m : Machine) (hcall : call.Plain) (hm : m.Sound) :
      Ends call.perform m (fun _ m' => m'.Sound ∧ True) fun e m' => m'.Sound ∧ ¬ e.isInternal :=
    (Sound.perform hm hcall).mono (fun _ _ hx => ⟨hx, trivial⟩) fun _ _ he => he
  have hsession := session_induction hkeep (sound_new config) hcalls step hstep
  refine ⟨?_, hsession.1.intact⟩
  intro slot
  constructor
  · intro herror
    rw [herror] at hsession
    exact hsession.2 rfl
  · intro herror
    rw [herror] at hsession
    exact hsession.2 rfl

/-- Collections in the middle of an array, and between the index and the value of an assignment. -/
theorem session_intact_collecting :
    let calls : List HostCall :=
      [.declare "a" (some (.array [.array [.literal .null], .call "gb_collect" []])),
        .assign (.index (.name "a") (.call "gb_collect" [])) (.array [.call "gb_collect" []]),
        .removeBinding "a"]
    (∀ call ∈ calls, call.Plain) ∧
      ∀ step ∈ (new { arena := { reclamation := .markSweep } }).session calls,
        (∀ slot, step.1 ≠ .error (.arena (.danglingSlot slot)) ∧
          step.1 ≠ .error (.arena (.notAContainer slot))) ∧ step.2.Intact := by
  intro calls
  have hcollect : Expr.Plain (.call "gb_collect" []) := .call (List.forall_mem_nil _)
  have hcalls : ∀ call ∈ calls, call.Plain := by
    refine List.forall_mem_cons.mpr ⟨?_, List.forall_mem_cons.mpr ⟨?_, List.forall_mem_singleton.mpr
      trivial⟩⟩
    · rintro e ⟨⟩
      refine .array (List.forall_mem_cons.mpr ⟨?_, List.forall_mem_singleton.mpr hcollect⟩)
      exact .array (List.forall_mem_singleton.mpr (.literal rfl))
    · exact ⟨.index (.name "a") hcollect, .array (List.forall_mem_singleton.mpr hcollect)⟩
  exact ⟨hcalls, session_intact _ calls hcalls⟩

end Machine

end SlotScript
