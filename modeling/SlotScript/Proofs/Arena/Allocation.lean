import SlotScript.Proofs.Ends

/-!
# How many slots an operation takes

`Arena.Took a n a'`: going from `a` to `a'` took `n` slots. A member takes one if its outcome is fresh
and shares a slot otherwise, and a container takes one more (`took_build`). A new binding takes one
unless it adopts a minted slot (`took_bindingSlot`). A write takes one where it puts a fresh value into a
place that had no slot (`took_setProperty`).
-/

namespace SlotScript

/-- Whether the outcome is a value that is stored nowhere. -/
def Outcome.isFresh : Outcome → Bool
  | fresh _ => true
  | _ => false

/-- Whether the slot was allocated for the outcome. -/
def Outcome.isMinted : Outcome → Bool
  | minted _ => true
  | _ => false

/-- The outcomes that the members of a container are made from. -/
def NewContainer.outcomes : NewContainer → List Outcome
  | object members => members.map (·.2)
  | array elements => elements
  | function _ _ _ _ => []

namespace Arena

/-- `n` slots more were allocated, and are live. -/
structure Took (a : Arena) (n : Nat) (a' : Arena) : Prop where
  total_eq : a'.total = a.total + n
  live_eq : a'.live = a.live + n

variable {a a' a'' : Arena} {n k : Nat}

theorem took_zero (a : Arena) : a.Took 0 a := ⟨rfl, rfl⟩

theorem Took.trans (h : a.Took n a') (h' : a'.Took k a'') : a.Took (n + k) a'' :=
  ⟨by rw [h'.total_eq, h.total_eq, Nat.add_assoc], by rw [h'.live_eq, h.live_eq, Nat.add_assoc]⟩

/-- Whether writing the outcome puts a slot of its own there: the base is a container, the place is not
the length of an array and has no slot yet, and the outcome is fresh. -/
def addsSlot (a : Arena) (base : Value) (key : String) (outcome : Outcome) : Bool :=
  match base.handle? with
  | none => false
  | some owner =>
    match a.body owner with
    | .error _ => false
    | .ok body =>
      body.place key ≠ .length && (body.slotAt? (body.place key)).isNone && outcome.isFresh

theorem addsSlot_of_body {base : Value} {owner : SlotId} {body : Body}
    (howner : base.handle? = some owner) (hbody : a.body owner = .ok body) (key : String)
    (outcome : Outcome) : a.addsSlot base key outcome =
      (body.place key ≠ .length && (body.slotAt? (body.place key)).isNone && outcome.isFresh) := by
  simp only [addsSlot, howner, hbody]

end Arena

namespace ArenaM

variable {a a' : Arena}

theorem took_allocWith {content : SlotId → Slot} {id : SlotId}
    (h : allocWith content a = .ok id a') : a.Took 1 a' := by
  unfold allocWith at h
  split at h
  · cases h
  · dsimp only at h
    split at h
    · cases h
      exact ⟨rfl, rfl⟩
    · split at h
      · cases h
        exact ⟨rfl, rfl⟩
      · cases h

theorem took_setValue {slot : SlotId} {value : Value} (h : setValue slot value a = .ok () a') :
    a.Took 0 a' := by
  obtain ⟨_, -, ⟨⟩⟩ := read_bind_eq_ok_iff.mp h
  exact ⟨rfl, rfl⟩

theorem took_modifyBody {owner : SlotId} {f : Body → Body}
    (h : modifyBody owner f a = .ok () a') : a.Took 0 a' := by
  obtain ⟨_, -, ⟨⟩⟩ := read_bind_eq_ok_iff.mp h
  exact ⟨rfl, rfl⟩

theorem took_memberSlot {outcome : Outcome} {r : SlotId × Bool}
    (h : memberSlot outcome a = .ok r a') : a.Took outcome.isFresh.toNat a' := by
  cases outcome with
  | fresh value =>
    obtain ⟨_, _, halloc, ⟨⟩⟩ := bind_eq_ok_iff.mp h
    exact took_allocWith halloc
  | aliased slot =>
    obtain ⟨_, -, ⟨⟩⟩ := read_bind_eq_ok_iff.mp h
    exact a.took_zero
  | minted slot =>
    obtain ⟨_, -, ⟨⟩⟩ := read_bind_eq_ok_iff.mp h
    exact a.took_zero

theorem took_elementSlots {elements : List Outcome} {slots : List SlotId}
    (h : elementSlots elements a = .ok slots a') : a.Took (elements.countP (·.isFresh)) a' := by
  induction elements generalizing a slots with
  | nil =>
    cases h
    exact Arena.took_zero _
  | cons element rest ih =>
    obtain ⟨r, a₁, hfirst, h⟩ := bind_eq_ok_iff.mp h
    obtain ⟨others, a₂, hrest, ⟨⟩⟩ := bind_eq_ok_iff.mp h
    have htook := (took_memberSlot hfirst).trans (ih hrest)
    rw [List.countP_cons]
    cases hfresh : element.isFresh with
    | true => rw [hfresh, Bool.toNat_true, Nat.add_comm] at htook; exact htook
    | false => rw [hfresh, Bool.toNat_false, Nat.zero_add] at htook; exact htook

/-- A container takes one slot, and one more for each member whose outcome is fresh. -/
theorem took_build {container : NewContainer} {id : SlotId} (h : build container a = .ok id a') :
    a.Took (1 + container.outcomes.countP (·.isFresh)) a' := by
  rw [Nat.add_comm]
  cases container with
  | object members =>
    obtain ⟨slots, a₁, hslots, halloc⟩ := bind_eq_ok_iff.mp h
    rw [namedSlots_eq_map, map_eq_ok_iff] at hslots
    obtain ⟨others, hslots, -⟩ := hslots
    exact (took_elementSlots hslots).trans (took_allocWith halloc)
  | array elements =>
    obtain ⟨slots, a₁, hslots, halloc⟩ := bind_eq_ok_iff.mp h
    exact (took_elementSlots hslots).trans (took_allocWith halloc)
  | function parameters code scope properties => exact took_allocWith h

/-- A new binding takes a slot, unless it adopts a minted one. -/
theorem took_bindingSlot {outcome : Outcome} {id : SlotId}
    (h : bindingSlot outcome a = .ok id a') : a.Took (!outcome.isMinted).toNat a' := by
  cases outcome with
  | fresh value => exact took_allocWith h
  | aliased slot =>
    obtain ⟨_, -, halloc⟩ := read_bind_eq_ok_iff.mp h
    exact took_allocWith halloc
  | minted slot =>
    obtain ⟨_, -, ⟨⟩⟩ := read_bind_eq_ok_iff.mp h
    exact a.took_zero

theorem took_setLength {owner : SlotId} {outcome : Outcome}
    (h : setLength owner outcome a = .ok () a') : a.Took 0 a' := by
  obtain ⟨value, -, hvalue⟩ := read_bind_eq_ok_iff.mp h
  obtain ⟨length, -, hlength⟩ := read_bind_eq_ok_iff.mp hvalue
  exact took_modifyBody hlength

theorem took_setPlace {owner : SlotId} {body : Body} {place : Place} {outcome : Outcome}
    (hbody : a.body owner = .ok body) (h : setPlace owner place outcome a = .ok () a') :
    a.Took ((body.slotAt? place).isNone && outcome.isFresh).toNat a' := by
  obtain ⟨_, hread, hput⟩ := read_bind_eq_ok_iff.mp h
  cases hread.symm.trans hbody
  cases hslot : body.slotAt? place with
  | some slot =>
    rw [hslot] at hput
    obtain ⟨value, -, hset⟩ := read_bind_eq_ok_iff.mp hput
    exact took_setValue hset
  | none =>
    rw [hslot] at hput
    obtain ⟨r, a₁, hmember, hmodify⟩ := bind_eq_ok_iff.mp hput
    exact (took_memberSlot hmember).trans (took_modifyBody hmodify)

/-- A write takes a slot exactly if it adds one. -/
theorem took_setProperty {base : Value} {key : String} {outcome : Outcome}
    (h : setProperty base key outcome a = .ok () a') :
    a.Took (a.addsSlot base key outcome).toNat a' := by
  unfold setProperty at h
  cases howner : base.handle? with
  | none =>
    rw [howner] at h
    cases h
    simp only [Arena.addsSlot, howner]
    exact a.took_zero
  | some owner =>
    rw [howner] at h
    obtain ⟨body, hbody, hwrite⟩ := read_bind_eq_ok_iff.mp h
    rw [Arena.addsSlot_of_body howner hbody]
    cases hplace : body.place key with
    | length => rw [hplace] at hwrite; exact took_setLength hwrite
    | element index => rw [hplace] at hwrite; exact took_setPlace hbody hwrite
    | property name => rw [hplace] at hwrite; exact took_setPlace hbody hwrite

end ArenaM

end SlotScript
