import SlotScript.Proofs.Arena.Failure
import SlotScript.Proofs.Arena.Writing

/-!
# Members keep their slots

As long as a slot keeps its body, the members of the body keep theirs (`Accounted.retains_after` for a call,
`Accounted.retains_run` for a run): properties are added after those that are there, and an element stays
until the length of the array is set to its index or less (`Arena.Cuts`, `Arena.CutDuring`). Building and
writing values change no body that is there, a write to a property adds one entry to one body, and a
collection leaves a body as it is or drops it as a whole.
-/

namespace SlotScript.Arena

/-- The call sets the length of the array that `owner` owns to `index` or less, so that no element is left
there. -/
def Cuts (a : Arena) (owner : SlotId) (index : Nat) (call : ArenaCall) : Prop :=
  ∃ base outcome value length body, call = .setProperty base lengthKey outcome ∧
    base.handle? = some owner ∧ a.resolve outcome = .ok value ∧ value.DenotesLength length ∧
    length ≤ index ∧ (a.after call).body owner = .ok body ∧ body.slotAt? (.element index) = none

/-- One of the calls does. -/
def CutDuring (a : Arena) (owner : SlotId) (index : Nat) : List ArenaCall → Prop
  | [] => False
  | call :: calls => a.Cuts owner index call ∨ (a.after call).CutDuring owner index calls

variable {a a' : Arena} {owner : SlotId} {b b' : Body} {cut : Nat → Prop}

theorem retains_of_body_eq (hsame : a'.body owner = a.body owner) (hb : a.body owner = .ok b)
    (hb' : a'.body owner = .ok b') : b.Retains cut b' := by
  cases hb.symm.trans (hsame.symm.trans hb')
  exact b.retains_refl cut

/-- What only adds slots keeps the bodies. -/
theorem Added.retains {added : List (SlotId × Slot)} (h : a.Added added a') (hb : a.body owner = .ok b)
    (hb' : a'.body owner = .ok b') : b.Retains cut b' :=
  retains_of_body_eq (h.body_eq (isLive_of_body hb)) hb hb'

theorem retains_building {α : Type} {act : ArenaM α} (hact : Always Adds act) (h : a.Accounted)
    (hb : a.body owner = .ok b) (hb' : (stateAfter act a).body owner = .ok b') : b.Retains cut b' := by
  obtain ⟨added, hadded⟩ := hact.stateAfter a h
  exact hadded.retains hb hb'

theorem retains_setValue {slot : SlotId} {value : Value} (hb : a.body owner = .ok b)
    (hb' : (stateAfter (ArenaM.setValue slot value) a).body owner = .ok b') : b.Retains cut b' := by
  refine retains_of_body_eq ?_ hb hb'
  cases hact : ArenaM.setValue slot value a with
  | ok _ a₁ =>
    rw [stateAfter_of_ok hact, (ArenaM.eq_of_setValue hact).2, body_withValue]
  | error e a₁ =>
    rw [stateAfter_of_error hact, ArenaM.atomic_setValue slot value a e a₁ hact]

/-! ### Writes -/

theorem retains_withBody {writer : SlotId} {body body' : Body} (hbody : a.body writer = .ok body)
    (hretains : writer = owner → body.Retains cut body') (hb : a.body owner = .ok b)
    (hb' : (a.withBody writer body').body owner = .ok b') : b.Retains cut b' := by
  by_cases howner : owner = writer
  · subst howner
    rw [body_withBody_self (isLive_of_body hbody)] at hb'
    cases hb.symm.trans hbody
    cases hb'
    exact hretains rfl
  · exact retains_of_body_eq (body_withBody_of_ne howner body') hb hb'

theorem Written.retains {writer slot : SlotId} {body : Body} {place : Place} {outcome : Outcome}
    {value : Value} (h : a.Written writer body place outcome value slot a')
    (hbody : a.body writer = .ok body) (hb : a.body owner = .ok b) (hb' : a'.body owner = .ok b') :
    b.Retains cut b' := by
  cases h with
  | replaced _ _ => exact retains_of_body_eq (body_withValue a slot owner value) hb hb'
  | shared hnone _ _ hgains =>
    exact retains_withBody hbody (fun _ => hgains.retains hnone cut) hb hb'
  | added hnone _ hadded hgains =>
    refine retains_withBody ?_ (fun _ => hgains.retains hnone cut) ?_ hb'
    · rw [hadded.body_eq (isLive_of_body hbody), hbody]
    · rw [hadded.body_eq (isLive_of_body hb), hb]

/-- A write keeps the slots of members, except for the elements that it cuts off. -/
theorem Accounted.retains_setProperty (h : a.Accounted) {base : Value} {key : String}
    {outcome : Outcome} (hb : a.body owner = .ok b)
    (hb' : (a.after (.setProperty base key outcome)).body owner = .ok b') :
    b.Retains (a.Cuts owner · (.setProperty base key outcome)) b' := by
  cases hact : ArenaM.setProperty base key outcome a with
  | error e a₁ =>
    have hsame : a.after (.setProperty base key outcome) = a :=
      (stateAfter_of_error hact).trans (ArenaM.atomic_setProperty h base key outcome e a₁ hact)
    exact retains_of_body_eq (by rw [hsame]) hb hb'
  | ok _ a₁ =>
    have hafter : a.after (.setProperty base key outcome) = a₁ := stateAfter_of_ok hact
    have hb₁ := hb'
    rw [hafter] at hb'
    cases ArenaM.sets_of_setProperty h hact with
    | ignored _ => exact retains_of_body_eq rfl hb hb'
    | place _ hbody _ _ hwritten => exact hwritten.retains hbody hb hb'
    | @length writer body value length hwriter hbody hplace hvalue hlength =>
      refine retains_withBody hbody (fun howner => ?_) hb hb'
      subst howner
      obtain rfl : key = lengthKey := (Body.place_eq_length_iff.mp hplace).2
      rw [body_withBody_self (isLive_of_body hbody)] at hb'
      cases hb'
      refine (body.retains_setLength length).mono fun index hcut => ?_
      exact ⟨base, outcome, value, length, _, rfl, hwriter, hvalue, hlength, hcut.1, hb₁, hcut.2⟩

/-! ### Collections -/

/-- A body that a collection leaves is the one that was there. -/
theorem body_of_collect {roots : List Reference} (h : (a.collect roots).2.body owner = .ok b) :
    a.body owner = .ok b := by
  obtain ⟨slot', hslot', hbody⟩ := get?_of_body h
  obtain ⟨slot, hslot, -, hsame⟩ := get?_of_get?_collect hslot'
  exact body_eq_ok hslot (hsame b hbody)

theorem retains_collect {roots : List Reference} (hb : a.body owner = .ok b)
    (hb' : (a.collect roots).2.body owner = .ok b') : b.Retains cut b' := by
  cases hb.symm.trans (body_of_collect hb')
  exact b.retains_refl cut

/-! ### Calls and runs -/

/-- What a call does to a body that stays: members keep their slots, except for the elements that the
call cuts off. -/
theorem Accounted.retains_after (h : a.Accounted) {call : ArenaCall} (hb : a.body owner = .ok b)
    (hb' : (a.after call).body owner = .ok b') : b.Retains (a.Cuts owner · call) b' := by
  cases call with
  | alloc value => exact retains_building (ArenaM.adds_allocWith _) h hb hb'
  | allocBody body => exact retains_building (ArenaM.adds_allocWith _) h hb hb'
  | bindingSlot outcome => exact retains_building (ArenaM.adds.bindingSlot outcome) h hb hb'
  | memberSlot outcome => exact retains_building (ArenaM.adds.memberSlot outcome) h hb hb'
  | build container => exact retains_building (ArenaM.adds.build container) h hb hb'
  | setValue slot value => exact retains_setValue hb hb'
  | setProperty base key outcome => exact h.retains_setProperty hb hb'
  | collectSlots slots => exact retains_collect hb hb'
  | collect roots => exact retains_collect hb hb'

/-- What a run does to a body that stays throughout. -/
theorem Accounted.retains_run (h : a.Accounted) {calls : List ArenaCall}
    (hstays : ∀ s ∈ a.states calls, ∃ body, s.body owner = .ok body) (hb : a.body owner = .ok b)
    (hb' : (a.run calls).body owner = .ok b') : b.Retains (a.CutDuring owner · calls) b' := by
  induction calls generalizing a b with
  | nil => exact retains_of_body_eq rfl hb hb'
  | cons call calls ih =>
    rw [states_cons] at hstays
    obtain ⟨-, hstays⟩ := List.forall_mem_cons.mp hstays
    obtain ⟨b₁, hb₁⟩ := hstays _ ((a.after call).mem_states_self calls)
    have hfirst : b.Retains (a.CutDuring owner · (call :: calls)) b₁ :=
      (h.retains_after hb hb₁).mono fun index hcut => .inl hcut
    have hrest : b₁.Retains (a.CutDuring owner · (call :: calls)) b' :=
      (ih (h.accounted_after call) hstays hb₁ hb').mono fun index hcut => .inr hcut
    exact hfirst.trans hrest

/-! ### Sharing a slot -/

theorem getProperty_congr {base : Value} (h : base.handle? = some owner)
    (hsame : a'.body owner = a.body owner) (key : String) :
    a'.getProperty base key = a.getProperty base key := by
  simp only [Arena.getProperty, h, hsame]

theorem property_of_getProperty {base : Value} {key : String} {slot : SlotId}
    (hshared : a.getProperty base key = .ok (.aliased slot)) :
    ∃ owner body, base.handle? = some owner ∧ a.body owner = .ok body ∧
      body.property key = .aliased slot := by
  cases howner : base.handle? with
  | none =>
    simp only [Arena.getProperty, howner] at hshared
    cases hshared
  | some owner =>
    cases hbody : a.body owner with
    | error e =>
      simp only [Arena.getProperty, howner, hbody] at hshared
      cases hshared
    | ok body =>
      rw [getProperty_of_body howner hbody] at hshared
      cases hshared' : body.property key with
      | aliased other =>
        rw [hshared'] at hshared
        cases hshared
        exact ⟨owner, body, rfl, hbody, hshared'⟩
      | _ => rw [hshared'] at hshared; cases hshared

/-- Replacing a value does not change where a key leads. -/
theorem getProperty_withValue {base : Value} {key : String} {slot : SlotId}
    (hshared : a.getProperty base key = .ok (.aliased slot)) (other : SlotId) (value : Value) :
    (a.withValue other value).getProperty base key = .ok (.aliased slot) := by
  obtain ⟨owner, body, howner, -, -⟩ := property_of_getProperty hshared
  rw [getProperty_congr howner (body_withValue a other owner value), hshared]

/-- A write to a key that leads to a slot replaces the value in that slot. -/
theorem Accounted.setProperty_aliased (h : a.Accounted) {base : Value} {key : String} {slot : SlotId}
    {outcome : Outcome} (hshared : a.getProperty base key = .ok (.aliased slot))
    (hact : ArenaM.setProperty base key outcome a = .ok () a') :
    ∃ value, a.resolve outcome = .ok value ∧ a.isLive slot ∧ a' = a.withValue slot value := by
  obtain ⟨owner, body, howner, hbody, hproperty⟩ := property_of_getProperty hshared
  have hslot := Body.slotAt?_of_property hproperty
  cases ArenaM.sets_of_setProperty h hact with
  | ignored hnone =>
    rw [howner] at hnone
    cases hnone
  | length howner' hbody' hplace _ _ =>
    obtain rfl := Option.some.inj (howner.symm.trans howner')
    cases hbody.symm.trans hbody'
    rw [hplace] at hslot
    cases hslot
  | place howner' hbody' _ hvalue hwritten =>
    obtain rfl := Option.some.inj (howner.symm.trans howner')
    cases hbody.symm.trans hbody'
    cases hwritten with
    | replaced hfound hlive =>
      cases hslot.symm.trans hfound
      exact ⟨_, hvalue, hlive, rfl⟩
    | shared hnone _ _ _ => cases hslot.symm.trans hnone
    | added hnone _ _ _ => cases hslot.symm.trans hnone

/-- What shares a slot with a key keeps sharing it through a run, as long as the body stays and the
element, if it is one, is not cut off. -/
theorem Accounted.getProperty_run (h : a.Accounted) {calls : List ArenaCall} {base : Value} {key : String}
    {slot : SlotId} (howner : base.handle? = some owner)
    (hshared : a.getProperty base key = .ok (.aliased slot))
    (hstays : ∀ s ∈ a.states calls, ∃ body, s.body owner = .ok body)
    (hcut : ∀ index, arrayIndex? key = some index → ¬ a.CutDuring owner index calls) :
    (a.run calls).getProperty base key = .ok (.aliased slot) := by
  obtain ⟨owner', b, howner', hb, hproperty⟩ := property_of_getProperty hshared
  obtain rfl := Option.some.inj (howner.symm.trans howner')
  obtain ⟨b', hb'⟩ := hstays _ (a.run_mem_states calls)
  rw [getProperty_of_body howner hb', (h.retains_run hstays hb hb').property_eq hproperty hcut]

end SlotScript.Arena
