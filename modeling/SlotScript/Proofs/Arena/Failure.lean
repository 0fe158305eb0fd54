import SlotScript.Proofs.Arena.Added
import SlotScript.Proofs.Arena.Allocation
import SlotScript.Proofs.Arena.Closed

/-!
# Operations that fail change nothing

`ArenaM.Atomic act a`: if `act` fails on `a`, it leaves `a` as it was. An allocation that fails changes
nothing, and the other operations allocate last. A write allocates the slot for a new member before it
changes the body, but that change cannot fail, as the body was looked at before and an allocation keeps
it. Only `build` can fail after some of the members have got their slots; what it leaves then are the
slots for the fresh members before the one that failed (`build_eq_error`).
-/

namespace SlotScript

namespace ArenaM

/-- If the operation fails, the arena is what it was. -/
def Atomic {α : Type} (act : ArenaM α) (a : Arena) : Prop := ∀ e a', act a = .error e a' → a' = a

variable {α β : Type} {a : Arena}

theorem atomic_of_eq_ok {act : ArenaM α} {x : α} {a' : Arena} (h : act a = .ok x a') : Atomic act a := by
  intro e a'' herror
  rw [h] at herror
  cases herror

theorem atomic_pure (x : α) (a : Arena) : Atomic (pure x) a := atomic_of_eq_ok rfl

/-- Reading first does not matter. -/
theorem atomic_read_bind {f : Arena → Except ArenaError α} {g : α → ArenaM β}
    (h : ∀ x, f a = .ok x → Atomic (g x) a) : Atomic (read f >>= g) a := by
  intro e a' herror
  cases hf : f a with
  | ok x =>
    rw [bind_eq_of_ok (read_eq_ok hf)] at herror
    exact h x hf e a' herror
  | error e' =>
    rw [bind_eq_of_error (read_eq_error hf)] at herror
    cases herror
    rfl

/-- What cannot fail may follow. -/
theorem Atomic.bind {act : ArenaM α} {f : α → ArenaM β} (h : Atomic act a)
    (hf : ∀ x a', act a = .ok x a' → ∃ y a'', f x a' = .ok y a'') : Atomic (act >>= f) a := by
  intro e a' herror
  cases hact : act a with
  | ok x a₁ =>
    obtain ⟨y, a₂, hy⟩ := hf x a₁ hact
    rw [bind_eq_of_ok hact, hy] at herror
    cases herror
  | error e' a₁ =>
    rw [bind_eq_of_error hact] at herror
    cases herror
    exact h e a' hact

theorem atomic_allocWith (content : SlotId → Slot) (a : Arena) : Atomic (allocWith content) a := by
  intro e a' herror
  unfold allocWith at herror
  split at herror
  · cases herror
    rfl
  · dsimp only at herror
    split at herror
    · cases herror
    · split at herror <;> cases herror
      rfl

theorem atomic_bindingSlot (outcome : Outcome) (a : Arena) : Atomic (bindingSlot outcome) a := by
  cases outcome with
  | fresh value => exact atomic_allocWith _ a
  | aliased slot => exact atomic_read_bind fun value _ => atomic_allocWith _ a
  | minted slot => exact atomic_read_bind fun _ _ => atomic_pure slot a

theorem atomic_memberSlot (outcome : Outcome) (a : Arena) : Atomic (memberSlot outcome) a := by
  cases outcome with
  | fresh value => exact (atomic_allocWith _ a).bind fun slot a' _ => ⟨(slot, true), a', rfl⟩
  | aliased slot => exact atomic_read_bind fun _ _ => atomic_pure _ a
  | minted slot => exact atomic_read_bind fun _ _ => atomic_pure _ a

theorem atomic_setValue (slot : SlotId) (value : Value) (a : Arena) :
    Atomic (setValue slot value) a := atomic_read_bind fun _ _ => atomic_of_eq_ok rfl

theorem atomic_modifyBody (slot : SlotId) (f : Body → Body) (a : Arena) :
    Atomic (modifyBody slot f) a := atomic_read_bind fun _ _ => atomic_of_eq_ok rfl

theorem atomic_setLength (owner : SlotId) (outcome : Outcome) (a : Arena) :
    Atomic (setLength owner outcome) a :=
  atomic_read_bind fun _ _ => atomic_read_bind fun _ _ => atomic_modifyBody owner _ a

theorem exists_body_of_memberSlot (h : a.Accounted) {owner : SlotId} {body : Body}
    (hbody : a.body owner = .ok body) {outcome : Outcome} {r : SlotId × Bool} {a' : Arena}
    (hmember : memberSlot outcome a = .ok r a') : ∃ body', a'.body owner = .ok body' := by
  have hgrown : a.Grown a' := (ends_ok hmember).mp (grows.memberSlot outcome a) h
  obtain ⟨slot, hslot, hshape⟩ := Arena.get?_of_body hbody
  obtain ⟨slot', hslot', hsame⟩ := hgrown.shape_eq hslot
  rw [hshape] at hsame
  obtain ⟨body', hbody', -⟩ := Option.map_eq_some_iff.mp hsame
  exact ⟨body', Arena.body_eq_ok hslot' hbody'⟩

theorem atomic_setPlace (h : a.Accounted) (owner : SlotId) (place : Place) (outcome : Outcome) :
    Atomic (setPlace owner place outcome) a := by
  refine atomic_read_bind fun body hbody => ?_
  cases body.slotAt? place with
  | some slot => exact atomic_read_bind fun value _ => atomic_setValue slot value a
  | none =>
    refine (atomic_memberSlot outcome a).bind fun r a' hmember => ?_
    obtain ⟨body', hbody'⟩ := exists_body_of_memberSlot h hbody hmember
    exact ⟨(), _, bind_eq_of_ok (read_eq_ok hbody')⟩

/-- **A write that fails changes nothing**, wherever it fails. -/
theorem atomic_setProperty (h : a.Accounted) (base : Value) (key : String) (outcome : Outcome) :
    Atomic (setProperty base key outcome) a := by
  unfold setProperty
  cases base.handle? with
  | none => exact atomic_pure () a
  | some owner =>
    refine atomic_read_bind fun body _ => ?_
    cases body.place key with
    | length => exact atomic_setLength owner outcome a
    | element index => exact atomic_setPlace h owner _ outcome
    | property name => exact atomic_setPlace h owner _ outcome

/-! ### Building -/

/-- Why building stops, with the error `e` and the outcomes `rest` of the members still to be placed. -/
inductive StopsAt (a : Arena) (e : ArenaError) : (rest : List Outcome) → Prop where
  /-- The next member gets no slot. -/
  | member {failing later} : memberSlot failing a = .error e a → StopsAt a e (failing :: later)
  /-- All members have their slots, and none is left for the container. -/
  | container : a.config.capacity.toNat ≤ a.live → e = .exhausted a.config.capacity → StopsAt a e []

variable {a' : Arena} {e : ArenaError}

/-- Where there is no slot for the container, all members have theirs. -/
theorem stopsAt_of_allocBody (h : a.Accounted) {elements : List Outcome} {slots : List SlotId}
    {a₁ : Arena} {body : Body} (hslots : elementSlots elements a = .ok slots a₁)
    (hbody : allocBody body a₁ = .error e a') :
    elementSlots elements a = .ok slots a' ∧ StopsAt a' e [] := by
  obtain ⟨added, -, hadded⟩ := added_of_elementSlots h hslots
  obtain ⟨hfull, rfl, rfl⟩ := (ends_error hbody).mp (hadded.accounted.ends_allocWith _)
  exact ⟨hslots, .container hfull rfl⟩

/-- Elements that fail to get their slots do so at one of them, after those before it. -/
theorem elementSlots_eq_error {elements : List Outcome} (hact : elementSlots elements a = .error e a') :
    ∃ before rest slots, elements = before ++ rest ∧ elementSlots before a = .ok slots a' ∧
      StopsAt a' e rest := by
  induction elements generalizing a with
  | nil => cases hact
  | cons element later ih =>
    rcases bind_eq_error_iff.mp hact with hfirst | ⟨r, a₁, hfirst, hlater⟩
    · obtain rfl := atomic_memberSlot element a e a' hfirst
      exact ⟨[], element :: later, [], rfl, rfl, .member hfirst⟩
    · rcases bind_eq_error_iff.mp hlater with hlater | ⟨_, _, -, hpure⟩
      · obtain ⟨before, rest, slots, rfl, hbefore, hstop⟩ := ih hlater
        refine ⟨element :: before, rest, r.1 :: slots, rfl, ?_, hstop⟩
        exact (bind_eq_of_ok hfirst).trans (bind_eq_of_ok hbefore)
      · cases hpure

/-- **A container that cannot be built** stops at a member, or at its own slot after all of them. -/
theorem build_eq_error (h : a.Accounted) {container : NewContainer}
    (hact : build container a = .error e a') :
    ∃ before rest slots, container.outcomes = before ++ rest ∧ elementSlots before a = .ok slots a' ∧
      StopsAt a' e rest := by
  cases container with
  | object members =>
    rcases bind_eq_error_iff.mp hact with hslots | ⟨slots, a₁, hslots, hbody⟩
    · rw [namedSlots_eq_map, map_eq_error_iff] at hslots
      exact elementSlots_eq_error hslots
    · rw [namedSlots_eq_map, map_eq_ok_iff] at hslots
      obtain ⟨others, hslots, -⟩ := hslots
      exact ⟨_, [], others, (List.append_nil _).symm, stopsAt_of_allocBody h hslots hbody⟩
  | array elements =>
    rcases bind_eq_error_iff.mp hact with hslots | ⟨slots, a₁, hslots, hbody⟩
    · exact elementSlots_eq_error hslots
    · exact ⟨_, [], slots, (List.append_nil _).symm, stopsAt_of_allocBody h hslots hbody⟩
  | function parameters code scope properties =>
    exact ⟨[], [], [], rfl, stopsAt_of_allocBody h rfl hact⟩

end ArenaM

namespace Arena

open ArenaM (Atomic StopsAt)

/-- **What fails leaves the arena as it was**, after any run of calls and for all arguments. Only
building is done in parts: where it fails, the members before the one at which it stopped have got
their slots. So there is a new slot for each fresh value among them, and nothing else is new. -/
theorem operations_atomic (config : ArenaConfig) (calls : List ArenaCall) :
    let a := (new config).run calls
    (∀ value, Atomic (ArenaM.alloc value) a) ∧
    (∀ body, Atomic (ArenaM.allocBody body) a) ∧
    (∀ slot value, Atomic (ArenaM.setValue slot value) a) ∧
    (∀ outcome, Atomic (ArenaM.bindingSlot outcome) a) ∧
    (∀ outcome, Atomic (ArenaM.memberSlot outcome) a) ∧
    (∀ base key outcome, Atomic (ArenaM.setProperty base key outcome) a) ∧
    ∀ container e a', ArenaM.build container a = .error e a' →
      (∀ id, a.isLive id → a'.get? id = a.get? id) ∧
      ∃ before rest slots added, container.outcomes = before ++ rest ∧
        ArenaM.elementSlots before a = .ok slots a' ∧ StopsAt a' e rest ∧
        added.map (·.2) = freshSlots before ∧ a.Added added a' := by
  intro a
  have ha : a.Accounted := (accounted_new config).accounted_run calls
  refine ⟨?_, ?_, ?_, ?_, ?_, ?_, ?_⟩
  · exact fun value => ArenaM.atomic_allocWith _ a
  · exact fun body => ArenaM.atomic_allocWith _ a
  · exact fun slot value => ArenaM.atomic_setValue slot value a
  · exact fun outcome => ArenaM.atomic_bindingSlot outcome a
  · exact fun outcome => ArenaM.atomic_memberSlot outcome a
  · exact fun base key outcome => ArenaM.atomic_setProperty ha base key outcome
  · intro container e a' hact
    obtain ⟨before, rest, slots, houtcomes, hslots, hstop⟩ := ArenaM.build_eq_error ha hact
    obtain ⟨added, hfresh, hadded⟩ := ArenaM.added_of_elementSlots ha hslots
    exact ⟨fun id hid => hadded.get?_of_isLive hid, before, rest, slots, added, houtcomes, hslots,
      hstop, hfresh, hadded⟩

/-- The second of three members shares a slot that is not live: the first one has got its slot. -/
theorem operations_atomic_dangling :
    let a := (new {}).run [.alloc .null]
    let container : NewContainer :=
      .object [("x", .fresh .undefined), ("y", .aliased ⟨5⟩), ("z", .fresh .null)]
    let a' := stateAfter (ArenaM.build container) a
    ArenaM.build container a = .error (.danglingSlot ⟨5⟩) a' ∧ a'.live = 2 ∧
      (∀ id, a.isLive id → a'.get? id = a.get? id) ∧
      ∃ before rest slots added, container.outcomes = before ++ rest ∧
        ArenaM.elementSlots before a = .ok slots a' ∧ StopsAt a' (.danglingSlot ⟨5⟩) rest ∧
        added.map (·.2) = freshSlots before ∧ a.Added added a' := by
  intro a container a'
  obtain ⟨-, -, -, -, -, -, hbuild⟩ := operations_atomic {} [.alloc .null]
  exact ⟨rfl, rfl, hbuild container _ _ rfl⟩

end Arena

end SlotScript
