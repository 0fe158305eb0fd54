import SlotScript.Proofs.Machine.Failure

/-!
# Minted slots are not shared

A minted slot is one that nothing else refers to: no binding, no member of a body, and no value but the
one that it holds itself (`Machine.Unshared`). Only the literals of containers mint slots, and `and` and
`or` pass on what their operands mint, so this follows by induction on the expression
(`unshared_of_eval`). It holds of every evaluation that a call makes, as all of them start from sound
machines (`HostCall.sound_of_mem_evaluations`).
-/

namespace SlotScript

/-! ### New containers -/

namespace Arena

/-- The slot is no member of a stored body, and no stored value but its own has a handle to it. -/
structure Unreferenced (a : Arena) (id : SlotId) : Prop where
  member : ∀ {other slot body}, a.get? other = some slot → slot.body = some body → id ∉ body.members
  handle : ∀ {other slot}, a.get? other = some slot → slot.value.handle? = some id → other = id

variable {a a' : Arena} {id : SlotId}

/-- Where everything leads somewhere, nothing leads to an id that is not live, so nothing does when it
has been allocated. -/
theorem Allocated.unreferenced {slot : Slot} (h : a.Allocated id slot a') (hclosed : a.Closed)
    (hmember : ∀ body, slot.body = some body → ∀ member ∈ body.members, a.isLive member) :
    a'.Unreferenced id := by
  constructor
  · intro other s body hs hbody hid
    rw [h.get?_eq] at hs
    split at hs
    · obtain rfl := Option.some.inj hs
      exact h.not_isLive (hmember body hbody id hid)
    · exact h.not_isLive (hclosed.member hs hbody id hid)
  · intro other s hs hhandle
    rw [h.get?_eq] at hs
    split at hs
    · assumption
    · exact absurd ((hclosed.value hs).isLive hhandle) h.not_isLive

end Arena

namespace ArenaM

variable {a a' : Arena} {id : SlotId}

/-- Building a container adds slots for members, and then allocates the body. -/
theorem allocBody_of_build (h : a.Accounted) (hclosed : a.Closed) {container : NewContainer}
    (hvalid : container.ValidIn a) (hbuild : build container a = .ok id a') :
    ∃ body a₁, a.Extended a₁ ∧ (∀ member ∈ body.members, a₁.isLive member) ∧
      allocBody body a₁ = .ok id a' := by
  cases container with
  | object members =>
    obtain ⟨slots, a₁, hslots, halloc⟩ := bind_eq_ok_iff.mp hbuild
    obtain ⟨hext, hlive⟩ := (ends_ok hslots).mp (endsVia_namedSlots h hclosed hvalid)
    refine ⟨_, a₁, hext, fun member hmember => ?_, halloc⟩
    obtain ⟨entry, hentry, rfl⟩ := List.mem_map.mp (NameTable.mem_slots_ofList hmember)
    exact hlive entry hentry
  | array elements =>
    obtain ⟨slots, a₁, hslots, halloc⟩ := bind_eq_ok_iff.mp hbuild
    obtain ⟨hext, hlive⟩ := (ends_ok hslots).mp (endsVia_elementSlots h hclosed hvalid)
    refine ⟨_, a₁, hext, fun member hmember => ?_, halloc⟩
    rcases Body.mem_members_iff.mp hmember with ⟨e, he, hmember⟩ | hmember
    · obtain rfl := Option.some.inj he
      exact hlive member (Elements.mem_slots_ofList hmember)
    · cases hmember
  | function parameters code scope properties =>
    refine ⟨_, a, hclosed.extended_refl h, fun member hmember => ?_, hbuild⟩
    exact hvalid member hmember

/-- Nothing refers to a new container, and its slot was not live. -/
theorem unreferenced_build (h : a.Accounted) (hclosed : a.Closed) {container : NewContainer}
    (hvalid : container.ValidIn a) (hbuild : build container a = .ok id a') :
    a'.Unreferenced id ∧ ¬ a.isLive id := by
  obtain ⟨body, a₁, hext, hmember, halloc⟩ := allocBody_of_build h hclosed hvalid hbuild
  obtain ⟨-, hallocated⟩ := (ends_ok halloc).mp (hext.accounted.ends_allocWith _)
  refine ⟨hallocated.unreferenced hext.closed fun b hb => ?_, fun hid => ?_⟩
  · obtain rfl := Option.some.inj hb
    exact hmember
  · exact hallocated.not_isLive (hext.toGrown.isLive hid)

end ArenaM

/-! ### Minted outcomes -/

/-- Nothing refers to the slot, apart from the value in it. -/
structure Machine.Unshared (m : Machine) (slot : SlotId) : Prop extends
    m.arena.Unreferenced slot where
  binding : ∀ name, m.bindings.get? name ≠ some slot

theorem Machine.Unshared.release {m : Machine} {slot : SlotId} (h : m.Unshared slot) (depth : Nat) :
    (m.release depth).Unshared slot := ⟨h.toUnreferenced, h.binding⟩

namespace MachineM

variable {m m' : Machine} {e left right : Expr} {slot : SlotId}

theorem unshared_build (h : m.Sound) {container : NewContainer}
    (hvalid : container.ValidIn m.arena) (hbuild : onArena (.build container) m = .ok slot m') :
    m'.Unshared slot := by
  obtain ⟨arena, harena, rfl⟩ := onArena_eq_ok_iff.mp hbuild
  obtain ⟨hunreferenced, hnew⟩ := ArenaM.unreferenced_build h.accounted h.closed hvalid harena
  refine ⟨hunreferenced, fun name hname => hnew ?_⟩
  exact h.binding slot (NameTable.mem_slots_of_get? hname)

/-- The operation does not end in a minted outcome. -/
def MintsNothing (act : MachineM Outcome) : Prop :=
  ∀ {m : Machine} {slot : SlotId} {m' : Machine}, act m ≠ .ok (.minted slot) m'

theorem mintsNothing_fresh (value : Value) : MintsNothing (return .fresh value) := by
  rintro m slot m' ⟨⟩

theorem mintsNothing_aliased (slot : SlotId) : MintsNothing (return .aliased slot) := by
  rintro m s m' ⟨⟩

theorem mintsNothing_throw (e : MachineError) : MintsNothing (throw e) := by
  rintro m slot m' ⟨⟩

theorem mintsNothing_bind {α : Type} {act : MachineM α} {f : α → MachineM Outcome}
    (hf : ∀ x, MintsNothing (f x)) : MintsNothing (act >>= f) := by
  intro m slot m' hrun
  obtain ⟨x, m₁, -, hrest⟩ := bind_eq_ok_iff.mp hrun
  exact hf x hrest

theorem MintsNothing.releasing {act : MachineM Outcome} (h : MintsNothing act) :
    MintsNothing (releasing act) := by
  intro m slot m' hrun
  obtain ⟨m₁, hact, -⟩ := releasing_eq_ok_iff.mp hrun
  exact h hact

/-- Reading a property gives a fresh or an aliased outcome. -/
theorem mintsNothing_getProperty (base : Value) (key : String) :
    MintsNothing (reading (·.getProperty base key)) := by
  intro m slot m' hrun
  obtain ⟨hread, -⟩ := reading_eq_ok_iff.mp hrun
  unfold Arena.getProperty at hread
  cases howner : base.handle? with
  | none => rw [howner] at hread; cases hread
  | some owner =>
    rw [howner] at hread
    dsimp only at hread
    cases hbody : m.arena.body owner with
    | error e => rw [hbody] at hread; cases hread
    | ok body =>
      rw [hbody] at hread
      exact body.property_ne_minted key slot (Except.ok.inj hread)

/-- What is shown for every machine by induction. -/
def Mints (e : Expr) : Prop :=
  ∀ {m : Machine} {slot m'}, m.Sound → eval e m = .ok (.minted slot) m' → m'.Unshared slot

/-- An operand's outcome is passed on. -/
theorem Mints.operand {o : Outcome} {v : Value} {m₁ m₂ : Machine} (he : Mints e) (h : m.Sound)
    (ho : eval e m = .ok o m₁) (hv : resolve o m₁ = .ok v m₂)
    (hslot : (return o : MachineM Outcome) m₂ = .ok (.minted slot) m') : m'.Unshared slot := by
  obtain rfl := eq_of_reading hv
  cases hslot
  exact he h ho

theorem mints_object {members : List (String × Expr)} (hmembers : ∀ member ∈ members, member.2.Plain) :
    Mints (.object members) := by
  intro m slot m' h heval
  rw [eval] at heval
  obtain ⟨m₁, hrun, rfl⟩ := releasing_eq_ok_iff.mp heval
  obtain ⟨outcomes, m₂, hevaluated, hrest⟩ := bind_eq_ok_iff.mp hrun
  obtain ⟨s, m₃, hbuild, ⟨⟩⟩ := bind_eq_ok_iff.mp hrest
  obtain ⟨hsteps, houtcomes⟩ := (ends_ok hevaluated).mp
    (endsVia_evalMembers (fun member hmember => endsVia_eval (hmembers member hmember)) h)
  have hvalid : NewContainer.ValidIn m₂.arena (.object outcomes) := houtcomes
  exact (unshared_build hsteps.sound hvalid hbuild).release _

theorem mints_array {elements : List Expr} (helements : ∀ element ∈ elements, element.Plain) :
    Mints (.array elements) := by
  intro m slot m' h heval
  rw [eval] at heval
  obtain ⟨m₁, hrun, rfl⟩ := releasing_eq_ok_iff.mp heval
  obtain ⟨outcomes, m₂, hevaluated, hrest⟩ := bind_eq_ok_iff.mp hrun
  obtain ⟨s, m₃, hbuild, ⟨⟩⟩ := bind_eq_ok_iff.mp hrest
  obtain ⟨hsteps, houtcomes⟩ := (ends_ok hevaluated).mp
    (endsVia_evalElements (fun element helement => endsVia_eval (helements element helement)) h)
  have hvalid : NewContainer.ValidIn m₂.arena (.array outcomes) := houtcomes
  exact (unshared_build hsteps.sound hvalid hbuild).release _

theorem mints_function (parameters : List String) (code : Nat) : Mints (.function parameters code) := by
  intro m slot m' h heval
  rw [eval] at heval
  obtain ⟨m₁, hrun, rfl⟩ := releasing_eq_ok_iff.mp heval
  obtain ⟨s, m₂, hbuild, ⟨⟩⟩ := bind_eq_ok_iff.mp hrun
  exact (unshared_build h (NewContainer.validIn_function _ _ _ _) hbuild).release _

theorem mints_and (hleft : left.Plain) (ihleft : Mints left) (ihright : Mints right) :
    Mints (.and left right) := by
  intro m slot m' h heval
  rw [eval] at heval
  obtain ⟨m₁, hrun, rfl⟩ := releasing_eq_ok_iff.mp heval
  obtain ⟨o, m₂, ho, hrest⟩ := bind_eq_ok_iff.mp hrun
  obtain ⟨v, m₃, hv, hthen⟩ := bind_eq_ok_iff.mp hrest
  refine Machine.Unshared.release ?_ _
  cases htrue : v.toBoolean with
  | true =>
    rw [htrue] at hthen
    obtain rfl := eq_of_reading hv
    exact ihright ((ends_ok ho).mp (endsVia_eval hleft h)).1.sound hthen
  | false =>
    rw [htrue] at hthen
    exact ihleft.operand h ho hv hthen

theorem mints_or (hleft : left.Plain) (ihleft : Mints left) (ihright : Mints right) :
    Mints (.or left right) := by
  intro m slot m' h heval
  rw [eval] at heval
  obtain ⟨m₁, hrun, rfl⟩ := releasing_eq_ok_iff.mp heval
  obtain ⟨o, m₂, ho, hrest⟩ := bind_eq_ok_iff.mp hrun
  obtain ⟨v, m₃, hv, hthen⟩ := bind_eq_ok_iff.mp hrest
  refine Machine.Unshared.release ?_ _
  cases htrue : v.toBoolean with
  | true =>
    rw [htrue] at hthen
    exact ihleft.operand h ho hv hthen
  | false =>
    rw [htrue] at hthen
    obtain rfl := eq_of_reading hv
    exact ihright ((ends_ok ho).mp (endsVia_eval hleft h)).1.sound hthen

/-- The other forms mint nothing. -/
theorem MintsNothing.mints (h : MintsNothing (eval e)) : Mints e := fun _ heval => absurd heval h

/-- **What a plain expression mints is its own**: nothing else refers to the slot. -/
theorem unshared_of_eval (he : e.Plain) : Mints e := by
  induction he with
  | literal hvalue =>
    refine MintsNothing.mints ?_
    rw [eval_literal]
    exact MintsNothing.releasing (mintsNothing_fresh _)
  | name name =>
    refine MintsNothing.mints ?_
    rw [eval]
    refine MintsNothing.releasing ?_
    cases constant? name with
    | some value => exact mintsNothing_fresh value
    | none => exact mintsNothing_bind mintsNothing_aliased
  | member hbase ih =>
    refine MintsNothing.mints ?_
    rw [eval]
    exact MintsNothing.releasing (mintsNothing_bind fun v => mintsNothing_bind fun _ =>
      mintsNothing_getProperty v _)
  | index hbase hkey ihbase ihkey =>
    refine MintsNothing.mints ?_
    rw [eval]
    exact MintsNothing.releasing (mintsNothing_bind fun v => mintsNothing_bind fun _ =>
      mintsNothing_bind fun k => mintsNothing_bind fun _ => mintsNothing_getProperty v _)
  | object hmembers ih => exact mints_object hmembers
  | array helements ih => exact mints_array helements
  | function parameters code => exact mints_function parameters code
  | unary hoperand ih =>
    refine MintsNothing.mints ?_
    rw [eval]
    exact MintsNothing.releasing (mintsNothing_bind fun v => mintsNothing_fresh _)
  | binary hleft hright ihleft ihright =>
    refine MintsNothing.mints ?_
    rw [eval]
    exact MintsNothing.releasing (mintsNothing_bind fun v => mintsNothing_bind fun _ =>
      mintsNothing_bind fun w => mintsNothing_fresh _)
  | and hleft hright ihleft ihright => exact mints_and hleft ihleft ihright
  | or hleft hright ihleft ihright => exact mints_or hleft ihleft ihright
  | call harguments ih =>
    refine MintsNothing.mints ?_
    rw [eval]
    refine MintsNothing.releasing ?_
    split
    · exact mintsNothing_throw _
    · exact mintsNothing_bind fun _ => mintsNothing_bind fun v => mintsNothing_fresh v

/-! ### The evaluations that a call makes -/

theorem stepsOnly_keepingValue (he : e.Plain) : StepsOnly (keepingValue e) := fun _ h =>
  (Evaluates.value (endsVia_eval he) h).bind fun _ _ hsteps hv =>
    (endsVia_holdValue hsteps.sound hv).mono (fun _ h => h) (fun _ _ _ _ => trivial) fun _ he => he

theorem stepsOnly_keeping (he : e.Plain) : StepsOnly (keeping e) := fun _ h =>
  (endsVia_eval he h).bind fun _ _ hsteps ho =>
    (endsVia_hold hsteps.sound ho).mono (fun _ h => h) (fun _ _ _ _ => trivial) fun _ he => he

theorem stepsOnly_discarding (he : e.Plain) : StepsOnly (discarding e) := fun _ h =>
  (endsVia_eval he h).bind fun _ _ hsteps _ => endsVia_pure hsteps.sound.steps_refl trivial

theorem stepsOnly_truth (he : e.Plain) : StepsOnly (truth e) := fun _ h =>
  (Evaluates.value (endsVia_eval he) h).map fun _ _ _ _ => trivial

theorem StepsOnly.map {α β : Type} {act : MachineM α} (h : StepsOnly act) (f : α → β) :
    StepsOnly (f <$> act) := fun _ hm => (h hm).map fun _ _ _ _ => trivial

theorem sound_of_mem_inTurn {step : Expr → MachineM PUnit}
    (hstep : ∀ {e : Expr}, e.Plain → StepsOnly (step e)) {es : List Expr} (hes : ∀ e ∈ es, e.Plain)
    (h : m.Sound) {p : Expr × Machine} (hp : p ∈ inTurn step es m) : p.1.Plain ∧ p.2.Sound := by
  induction es generalizing m with
  | nil => cases hp
  | cons e rest ih =>
    obtain ⟨hfirst, hrest⟩ := List.forall_mem_cons.mp hes
    rw [inTurn] at hp
    rcases List.mem_cons.mp hp with rfl | hp
    · exact ⟨hfirst, h⟩
    · cases hact : step e m with
      | ok _ m₁ =>
        rw [hact] at hp
        exact ih hrest ((ends_ok hact).mp (hstep hfirst h)).1.sound hp
      | error _ _ =>
        rw [hact] at hp
        cases hp

theorem sound_of_mem_inCase {before : MachineM Bool} (hbefore : StepsOnly before) (he : e.Plain)
    (h : m.Sound) {p : Expr × Machine} (hp : p ∈ inCase before e m) : p.1.Plain ∧ p.2.Sound := by
  unfold inCase at hp
  split at hp
  · next m₁ hact =>
    obtain rfl := List.mem_singleton.mp hp
    exact ⟨he, ((ends_ok hact).mp (hbefore h)).1.sound⟩
  · cases hp

theorem sound_of_mem_operands (he : e.Plain) (h : m.Sound) {p : Expr × Machine}
    (hp : p ∈ operands e m) : p.1.Plain ∧ p.2.Sound := by
  have hpair {left right : Expr} (hleft : left.Plain) (hright : right.Plain) :
      ∀ e ∈ [left, right], e.Plain :=
    List.forall_mem_cons.mpr ⟨hleft, List.forall_mem_singleton.mpr hright⟩
  cases he with
  | literal _ => cases hp
  | name _ => cases hp
  | function _ _ => cases hp
  | member hbase =>
    obtain rfl := List.mem_singleton.mp hp
    exact ⟨hbase, h⟩
  | unary hoperand =>
    obtain rfl := List.mem_singleton.mp hp
    exact ⟨hoperand, h⟩
  | index hbase hkey => exact sound_of_mem_inTurn stepsOnly_keepingValue (hpair hbase hkey) h hp
  | binary hleft hright => exact sound_of_mem_inTurn stepsOnly_keepingValue (hpair hleft hright) h hp
  | object hmembers => exact sound_of_mem_inTurn stepsOnly_keeping (List.forall_mem_map.mpr hmembers) h hp
  | array helements => exact sound_of_mem_inTurn stepsOnly_keeping helements h hp
  | and hleft hright =>
    rcases List.mem_cons.mp hp with rfl | hp
    · exact ⟨hleft, h⟩
    · exact sound_of_mem_inCase (stepsOnly_truth hleft) hright h hp
  | or hleft hright =>
    rcases List.mem_cons.mp hp with rfl | hp
    · exact ⟨hleft, h⟩
    · exact sound_of_mem_inCase ((stepsOnly_truth hleft).map _) hright h hp
  | call harguments =>
    rw [operands] at hp
    split at hp
    · exact sound_of_mem_inTurn stepsOnly_discarding harguments h hp
    · cases hp

/-- Every evaluation within that of a plain expression is one of a plain expression, on a sound
machine. -/
theorem sound_of_mem_evaluations {e : Expr} (he : e.Plain) {m : Machine} (h : m.Sound)
    {p : Expr × Machine} (hp : p ∈ evaluations e m) : p.1.Plain ∧ p.2.Sound := by
  rw [evaluations_eq] at hp
  rcases List.mem_cons.mp hp with rfl | hp
  · exact ⟨he, h⟩
  · obtain ⟨q, hq, hp⟩ := List.mem_flatMap.mp hp
    obtain ⟨hplain, hsound⟩ := sound_of_mem_operands he h hq
    exact sound_of_mem_evaluations hplain hsound hp
termination_by sizeOf e
decreasing_by exact sizeOf_lt_of_mem_operands hq

end MachineM

open MachineM in
theorem HostCall.sound_of_mem_operands {call : HostCall} (hcall : call.Plain) {m : Machine}
    (h : m.Sound) {p : Expr × Machine} (hp : p ∈ call.operands m) : p.1.Plain ∧ p.2.Sound := by
  have hlookup (name : String) : StepsOnly (lookup name) := fun _ h =>
    (endsVia_lookup h name).mono (fun _ h => h) (fun _ _ _ _ => trivial) fun _ he => he
  cases call with
  | declare name initial =>
    cases initial with
    | none => cases hp
    | some e =>
      obtain rfl := List.mem_singleton.mp hp
      exact ⟨hcall e rfl, h⟩
  | eval e =>
    obtain rfl := List.mem_singleton.mp hp
    exact ⟨hcall, h⟩
  | evalValue e =>
    obtain rfl := List.mem_singleton.mp hp
    exact ⟨hcall, h⟩
  | removeBinding name => cases hp
  | collect => cases hp
  | assign target value =>
    obtain ⟨htarget, hvalue⟩ := hcall
    cases htarget with
    | name name => exact sound_of_mem_inCase ((hlookup name).map _) hvalue h hp
    | member hbase =>
      rcases List.mem_cons.mp hp with rfl | hp
      · exact ⟨hbase, h⟩
      · exact sound_of_mem_inCase ((stepsOnly_locate hbase (stepsOnly_pure _)).map _) hvalue h hp
    | index hbase hkey =>
      rcases List.mem_append.mp hp with hp | hp
      · exact sound_of_mem_inTurn stepsOnly_keepingValue
          (List.forall_mem_cons.mpr ⟨hbase, List.forall_mem_singleton.mpr hkey⟩) h hp
      · exact sound_of_mem_inCase ((stepsOnly_locate hbase (stepsOnly_toText hkey)).map _) hvalue h hp
    | _ => cases hp

theorem HostCall.sound_of_mem_evaluations {call : HostCall} (hcall : call.Plain) {m : Machine}
    (h : m.Sound) {p : Expr × Machine} (hp : p ∈ call.evaluations m) : p.1.Plain ∧ p.2.Sound := by
  obtain ⟨q, hq, hp⟩ := List.mem_flatMap.mp hp
  obtain ⟨hplain, hsound⟩ := sound_of_mem_operands hcall h hq
  exact MachineM.sound_of_mem_evaluations hplain hsound hp

end SlotScript
