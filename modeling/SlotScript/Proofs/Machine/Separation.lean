import SlotScript.Proofs.Machine.Minted

/-!
# Bindings do not share slots

A declaration takes over a slot that was minted for it, or allocates one, and nothing was bound to
either. Hence names never come to share a slot (`Machine.Separate`). An assignment to a name then
changes what that name stands for, and no other (`bindings_separate`).
-/

namespace SlotScript

namespace ArenaM

variable {a a' : Arena} {id : SlotId}

/-- A binding takes a minted slot over, or gets one that was not live. -/
theorem bindingSlot_cases (h : a.Accounted) {outcome : Outcome}
    (hslot : bindingSlot outcome a = .ok id a') : outcome = .minted id ∨ ¬ a.isLive id := by
  cases outcome with
  | fresh value => exact .inr ((ends_ok hslot).mp (h.ends_allocWith _)).2.not_isLive
  | aliased slot =>
    obtain ⟨v, -, halloc⟩ := read_bind_eq_ok_iff.mp hslot
    exact .inr ((ends_ok halloc).mp (h.ends_allocWith _)).2.not_isLive
  | minted slot =>
    obtain ⟨_, -, ⟨⟩⟩ := read_bind_eq_ok_iff.mp hslot
    exact .inl rfl

end ArenaM

namespace Machine

/-- Different names are bound to different slots. -/
def Separate (m : Machine) : Prop :=
  ∀ ⦃x y slot⦄, m.bindings.get? x = some slot → m.bindings.get? y = some slot → x = y

variable {m m' : Machine}

theorem Separate.of_bindings_eq (h : m.Separate) (heq : m'.bindings = m.bindings) : m'.Separate := by
  unfold Separate
  rw [heq]
  exact h

theorem Separate.insert (h : m.Separate) {slot : SlotId} (hnew : ∀ x, m.bindings.get? x ≠ some slot)
    (name : String) : Separate { m with bindings := m.bindings.insert name slot } := by
  intro x y s hx hy
  simp only [NameTable.get?_insert] at hx hy
  split at hx
  · cases hx
    split at hy
    · next hxname hyname => exact hxname.trans hyname.symm
    · exact absurd hy (hnew y)
  · split at hy
    · cases hy
      exact absurd hx (hnew x)
    · exact h hx hy

theorem Separate.removeBinding (h : m.Separate) (name : String) :
    (m.removeBinding name).2.Separate := by
  cases hname : m.bindings.get? name with
  | none => rwa [removeBinding_of_none hname]
  | some slot =>
    have herased : Separate { m with bindings := (m.bindings.getThenErase name).2 } := by
      intro x y s hx hy
      simp only [NameTable.get?_getThenErase] at hx hy
      split at hx
      · cases hx
      · split at hy
        · cases hy
        · exact h hx hy
    rw [removeBinding_of_some hname]
    split
    · exact herased.of_bindings_eq rfl
    · exact herased

end Machine

namespace MachineM

variable {m m' : Machine}

/-- What a declaration starts from is bound to no name if it is minted. -/
theorem binding_of_initialOutcome (h : m.Sound) {name : String} {initial : Option Expr}
    (hinitial : ∀ e ∈ initial, e.Plain) {slot : SlotId}
    (hrun : initialOutcome name initial m = .ok (.minted slot) m') (other : String) :
    m'.bindings.get? other ≠ some slot := by
  cases initial with
  | some e => exact (unshared_of_eval (hinitial e rfl) h hrun).binding other
  | none =>
    obtain ⟨_, _, ⟨⟩, hoption⟩ := bind_eq_ok_iff.mp hrun
    cases hname : m.bindings.get? name with
    | some slot => rw [hname] at hoption; cases hoption
    | none => rw [hname] at hoption; cases hoption

theorem separate_declare (h : m.Sound) (hseparate : m.Separate) {name : String}
    {initial : Option Expr} (hinitial : ∀ e ∈ initial, e.Plain) {slot : SlotId}
    (hrun : declare name initial m = .ok slot m') : m'.Separate := by
  obtain ⟨o, m₁, ho, hrest⟩ := bind_eq_ok_iff.mp hrun
  obtain ⟨s, m₂, hslot, hbind⟩ := bind_eq_ok_iff.mp hrest
  obtain ⟨hsteps, -⟩ := (ends_ok ho).mp (endsVia_initialOutcome h name hinitial)
  obtain ⟨arena, harena, rfl⟩ := onArena_eq_ok_iff.mp hslot
  cases hbind
  refine Machine.Separate.insert (hseparate.of_bindings_eq hsteps.bindings_eq) (fun x hx => ?_) name
  rcases ArenaM.bindingSlot_cases hsteps.sound.accounted harena with rfl | hnew
  · exact binding_of_initialOutcome h hinitial ho x hx
  · exact hnew (hsteps.sound.binding slot (NameTable.mem_slots_of_get? hx))

theorem bindings_of_assignProperty (h : m.Sound) {base value : Expr} {property : MachineM String}
    (hbase : base.Plain) (hproperty : StepsOnly property) (hvalue : value.Plain)
    (hrun : assignProperty base property value m = .ok () m') : m'.bindings = m.bindings := by
  rw [assignProperty_eq] at hrun
  obtain ⟨place, m₁, hlocate, hrest⟩ := bind_eq_ok_iff.mp hrun
  obtain ⟨o, m₂, ho, hset⟩ := bind_eq_ok_iff.mp hrest
  obtain ⟨arena, -, rfl⟩ := onArena_eq_ok_iff.mp hset
  have hsteps₁ := ((ends_ok hlocate).mp (stepsOnly_locate hbase hproperty h)).1
  have hsteps₂ := ((ends_ok ho).mp (endsVia_eval hvalue hsteps₁.sound)).1
  exact hsteps₂.bindings_eq.trans hsteps₁.bindings_eq

/-- What an assignment to a name does: it stores the value in the slot of the name, after evaluating
it. -/
theorem assign_name_cases {name : String} {value : Expr}
    (hrun : assign (.name name) value m = .ok () m') :
    ∃ slot o m₁ v, m.bindings.get? name = some slot ∧ eval value m = .ok o m₁ ∧
      m₁.arena.resolve o = .ok v ∧ m₁.arena.isLive slot ∧
      m' = { m₁ with arena := m₁.arena.modifySlot slot ({ · with value := v }) } := by
  obtain ⟨slot, m₀, hlookup, hrest⟩ := bind_eq_ok_iff.mp hrun
  obtain ⟨rfl, hname⟩ := eq_of_lookup hlookup
  obtain ⟨v, m₂, hv, hset⟩ := bind_eq_ok_iff.mp hrest
  obtain ⟨o, m₁, ho, hresolve⟩ := bind_eq_ok_iff.mp hv
  obtain ⟨hvalue, rfl⟩ := reading_eq_ok_iff.mp hresolve
  obtain ⟨arena, hwrite, rfl⟩ := onArena_eq_ok_iff.mp hset
  obtain ⟨s, hget, ⟨⟩⟩ := ArenaM.read_bind_eq_ok_iff.mp hwrite
  exact ⟨slot, o, m₂, v, hname, ho, hvalue, Arena.isLive_of_get? (Arena.get?_of_get hget), rfl⟩

theorem bindings_of_assign (h : m.Sound) {target value : Expr} (htarget : target.Plain)
    (hvalue : value.Plain) (hrun : assign target value m = .ok () m') : m'.bindings = m.bindings := by
  cases htarget with
  | name name =>
    obtain ⟨slot, o, m₁, v, -, ho, -, -, rfl⟩ := assign_name_cases hrun
    exact ((ends_ok ho).mp (endsVia_eval hvalue h)).1.bindings_eq
  | member hbase =>
    obtain ⟨m₁, hassign, rfl⟩ := releasing_eq_ok_iff.mp hrun
    have hbindings := bindings_of_assignProperty h hbase (stepsOnly_pure _) hvalue hassign
    exact hbindings
  | index hbase hkey =>
    obtain ⟨m₁, hassign, rfl⟩ := releasing_eq_ok_iff.mp hrun
    have hbindings := bindings_of_assignProperty h hbase (stepsOnly_toText hkey) hvalue hassign
    exact hbindings
  | _ => cases hrun

end MachineM

namespace Machine

open MachineM

variable {m m' : Machine}

/-- Each call keeps names separate. -/
theorem Separate.perform (hseparate : m.Separate) (h : m.Sound) {call : HostCall}
    (hcall : call.Plain) : (stateAfter call.perform m).Separate := by
  cases hact : call.perform m with
  | error e m' => exact hseparate.of_bindings_eq (h.steps_failure hcall hact).bindings_eq
  | ok reply m' =>
    have hstate : stateAfter call.perform m = m' := by rw [stateAfter, hact]
    rw [hstate]
    cases call with
    | declare name initial =>
      obtain ⟨slot, hrun, -⟩ := map_eq_ok_iff.mp hact
      exact separate_declare h hseparate hcall hrun
    | assign target value =>
      obtain ⟨_, hrun, -⟩ := map_eq_ok_iff.mp hact
      exact hseparate.of_bindings_eq (bindings_of_assign h hcall.1 hcall.2 hrun)
    | eval e =>
      exact hseparate.of_bindings_eq (hstate ▸ (h.steps_evaluation hcall rfl).bindings_eq)
    | evalValue e =>
      exact hseparate.of_bindings_eq (hstate ▸ (h.steps_evaluation hcall rfl).bindings_eq)
    | removeBinding name =>
      cases hact
      exact hseparate.removeBinding name
    | collect =>
      cases hact
      exact hseparate.of_bindings_eq rfl

theorem separate_after (config : MachineConfig) {calls : List HostCall}
    (hcalls : ∀ call ∈ calls, call.Plain) : ((new config).after calls).Separate := by
  have hboth : ((new config).after calls).Sound ∧ ((new config).after calls).Separate := by
    refine after_induction (P := fun m => m.Sound ∧ m.Separate) ?_ ⟨sound_new config, ?_⟩ hcalls
    · rintro call m hcall ⟨hm, hseparate⟩
      refine ⟨?_, hseparate.perform hm hcall⟩
      exact (Ends.mono (Sound.perform hm hcall) (fun _ _ hx => hx) fun _ _ he => he.1).stateAfter
    · intro x y slot hx
      cases hx
  exact hboth.2

theorem resultOf_valueOf_congr {name : String}
    (hbinding : m'.bindings.get? name = m.bindings.get? name)
    (hslot : ∀ slot, m.bindings.get? name = some slot → ∃ s s', m.arena.get? slot = some s ∧
      m'.arena.get? slot = some s' ∧ s'.value = s.value) :
    resultOf (valueOf name) m' = resultOf (valueOf name) m := by
  cases hname : m.bindings.get? name with
  | none =>
    rw [hname] at hbinding
    rw [resultOf, resultOf, valueOf_eq_error hname, valueOf_eq_error hbinding]
  | some slot =>
    rw [hname] at hbinding
    obtain ⟨s, s', hs, hs', hvalue⟩ := hslot slot hname
    rw [resultOf, resultOf, valueOf_eq_ok hname (Arena.value_eq_ok hs),
      valueOf_eq_ok hbinding (Arena.value_eq_ok hs'), hvalue]

/-- After an assignment to a name, that name stands for the value, and every other name for what it
stood for before: its slot is another one, and evaluating the value kept what was in it. -/
theorem Separate.valueOf_assign (hseparate : m.Separate) (h : m.Sound) {x : String} {e : Expr}
    (he : e.Plain) (hrun : assign (.name x) e m = .ok () m') :
    ∃ o m₁ v, eval e m = .ok o m₁ ∧ m₁.arena.resolve o = .ok v ∧ valueOf x m' = .ok v m' ∧
      ∀ y, y ≠ x → resultOf (valueOf y) m' = resultOf (valueOf y) m := by
  obtain ⟨slot, o, m₁, v, hx, ho, hv, hlive, rfl⟩ := assign_name_cases hrun
  have hsteps := ((ends_ok ho).mp (endsVia_eval he h)).1
  have hget (other : SlotId) := Arena.get?_modifySlot m₁.arena slot other ({ · with value := v })
  refine ⟨o, m₁, v, ho, hv, ?_, fun y hy => resultOf_valueOf_congr ?_ fun slot' hname => ?_⟩
  · obtain ⟨s, hs⟩ := Arena.get?_of_isLive hlive
    have hbound : m₁.bindings.get? x = some slot := by rw [hsteps.bindings_eq]; exact hx
    have hnow := hget slot
    rw [if_pos rfl, hs, Option.map_some] at hnow
    exact valueOf_eq_ok hbound (Arena.value_eq_ok hnow)
  · exact congrArg (·.get? y) hsteps.bindings_eq
  · have hne : slot' ≠ slot := by
      rintro rfl
      exact hy (hseparate hname hx)
    have hmem := NameTable.mem_slots_of_get? hname
    obtain ⟨s, hs⟩ := Arena.get?_of_isLive (h.binding slot' hmem)
    obtain ⟨s', hs', hsame⟩ :=
      hsteps.keeps.get?_value (.root (slot_mem_roots hmem) (h.binding slot' hmem)) hs
    exact ⟨s, s', hs, (hget slot').trans ((if_neg hne).trans hs'), hsame⟩

/-- **Bindings do not share slots**, on every machine that calls with plain expressions lead to:
different names are bound to different slots. Whenever an evaluation ends in a minted outcome, within
whatever call, nothing but the value in the slot refers to the slot. An assignment to a name gives it the
value that the expression evaluates to, and leaves every other name as it was. -/
theorem bindings_separate (config : MachineConfig) (calls : List HostCall)
    (hcalls : ∀ call ∈ calls, call.Plain) :
    let m := (new config).after calls
    (∀ x y slot, m.bindings.get? x = some slot → m.bindings.get? y = some slot → x = y) ∧
    (∀ call : HostCall, call.Plain → ∀ p ∈ call.evaluations m, ∀ slot m',
      eval p.1 p.2 = .ok (.minted slot) m' → m'.Unshared slot) ∧
    (∀ x e m', e.Plain → assign (.name x) e m = .ok () m' →
      ∃ o m₁ v, eval e m = .ok o m₁ ∧ m₁.arena.resolve o = .ok v ∧ valueOf x m' = .ok v m' ∧
        ∀ y, y ≠ x → resultOf (valueOf y) m' = resultOf (valueOf y) m) := by
  intro m
  have h : m.Sound := sound_after config hcalls
  have hseparate : m.Separate := separate_after config hcalls
  refine ⟨fun x y slot hx hy => hseparate hx hy, ?_, fun x e m' he => hseparate.valueOf_assign h he⟩
  intro call hcall p hp slot m' heval
  obtain ⟨hplain, hsound⟩ := HostCall.sound_of_mem_evaluations hcall h hp
  exact unshared_of_eval hplain hsound heval

/-- The object of `a` is minted by the operand that `or` passes on; `b` has a copy of the handle. -/
theorem bindings_separate_passing :
    let calls : List HostCall :=
      [.declare "a" (some (.or (.object []) (.literal .null))), .declare "b" (some (.name "a"))]
    let m := (new {}).after calls
    let e : Expr := .array [.name "b"]
    (∀ call ∈ calls, call.Plain) ∧
    (∀ x y slot, m.bindings.get? x = some slot → m.bindings.get? y = some slot → x = y) ∧
    (∃ slot m', eval e m = .ok (.minted slot) m' ∧ m'.Unshared slot) ∧
    ∃ m' v, assign (.name "a") e m = .ok () m' ∧ valueOf "a" m' = .ok v m' ∧
      resultOf (valueOf "b") m' = resultOf (valueOf "b") m := by
  intro calls m e
  have hcalls : ∀ call ∈ calls, call.Plain := by
    refine List.forall_mem_cons.mpr ⟨?_, List.forall_mem_singleton.mpr ?_⟩
    · rintro _ ⟨⟩
      exact .or (.object (List.forall_mem_nil _)) (.literal rfl)
    · rintro _ ⟨⟩
      exact .name "a"
  have he : e.Plain := .array (List.forall_mem_singleton.mpr (.name "b"))
  obtain ⟨hseparate, hminted, hassign⟩ := bindings_separate {} calls hcalls
  have hmem : (e, m) ∈ (HostCall.eval e).evaluations m := by
    rw [HostCall.evaluations, HostCall.operands, List.flatMap_singleton, evaluations_eq]
    exact List.mem_cons_self
  obtain ⟨o, m₁, v, -, -, ha, hothers⟩ := hassign "a" e _ he rfl
  exact ⟨hcalls, hseparate, ⟨_, _, rfl, hminted (.eval e) he _ hmem _ _ rfl⟩,
    ⟨_, v, rfl, ha, hothers "b" (by decide)⟩⟩

end Machine

end SlotScript
