import SlotScript.Proofs.Arena.Allocation
import SlotScript.Proofs.Arena.Writing
import SlotScript.Proofs.Entries
import SlotScript.Proofs.Keys

/-!
# New containers

Building a container places its members and then takes a slot for the container
(`ArenaM.build_eq_bind`). The body lists the slots of the members, by name or in order
(`NewContainer.Lists`). `Arena.Composed` says what that comes to, and `build_composes` proves it for every
list of members.

Each member reads as what it was made from. There is one exception: ids are reused, so an outcome whose
slot was not live can have become the slot of a fresh member before it (`build_composes_reused`).
-/

namespace SlotScript

/-! ### Placing the members first -/

theorem length_freshEntries (members : List Member) :
    (freshEntries members).length = (members.map (·.outcome)).countP (·.isFresh) := by
  induction members with
  | nil => rfl
  | cons m rest ih => cases houtcome : m.outcome <;> simp_all [freshEntries, Outcome.fresh?, Outcome.isFresh]

namespace NewContainer

/-- The members with the keys under which they are read, which are the indices in an array. -/
def keyed : NewContainer → List (String × Outcome)
  | object members => members
  | array elements => elements.zipIdx.map fun entry => (toString entry.2, entry.1)
  | function _ _ _ _ => []

/-- An array has no more elements than its length can count. -/
def Fits : NewContainer → Prop
  | array elements => elements.length ≤ maxArrayLength
  | _ => True

/-- The body, made from members in these slots. -/
def body (slots : List (String × SlotId)) : NewContainer → Body
  | object _ => { content := .object, properties := .ofList slots }
  | array _ => { content := .array (.ofList (slots.map (·.2))) }
  | function parameters code scope properties =>
    { content := .function parameters code scope, properties }

theorem map_snd_keyed (container : NewContainer) : container.keyed.map (·.2) = container.outcomes := by
  cases container with
  | object members => rfl
  | array elements => simp [keyed, outcomes, Function.comp_def]
  | function => rfl

end NewContainer

namespace ArenaM

/-- Building places the members and then takes a slot for the body. -/
theorem build_eq_bind (container : NewContainer) :
    build container = namedSlots container.keyed >>= fun slots => allocBody (container.body slots) := by
  cases container with
  | object members => rfl
  | array elements =>
    have helements : elements = (NewContainer.array elements).keyed.map (·.2) :=
      (NewContainer.map_snd_keyed (.array elements)).symm
    conv_lhs => rw [build, helements, elementSlots_eq_map, bind_map_left]
    rfl
  | function => rfl

end ArenaM

namespace Arena

variable {a a' : Arena} {members before after : List Member} {m : Member}

/-! ### The values of the members -/

theorem Placed.value_of_fresh (h : a.Placed members a') (hm : m ∈ members) {value : Value}
    (houtcome : m.outcome = .fresh value) : ¬ a.isLive m.slot ∧ a'.value m.slot = .ok value := by
  have hentry : (m.slot, { value }) ∈ freshEntries members :=
    mem_freshEntries.mpr ⟨m, hm, value, houtcome, rfl⟩
  exact ⟨h.added.not_isLive _ hentry, value_eq_ok (h.added.get?_added _ hentry)⟩

/-- What is in the slot of a member: the value that it was made from, or that of a fresh member before it
that got the slot. -/
theorem Placed.value (h : a.Placed members a') (hsplit : members = before ++ m :: after) :
    ∃ value, a'.value m.slot = .ok value ∧ (a.resolve m.outcome = .ok value ∨
      m.outcome.slot? = some m.slot ∧ ¬ a.isLive m.slot ∧
        ∃ earlier ∈ before, earlier.slot = m.slot ∧ earlier.outcome = .fresh value) := by
  cases hslot : m.outcome.slot? with
  | none =>
    cases houtcome : m.outcome with
    | fresh value =>
      have hm : m ∈ members := hsplit ▸ List.mem_append_right _ List.mem_cons_self
      exact ⟨value, (h.value_of_fresh hm houtcome).2, .inl rfl⟩
    | aliased slot => rw [houtcome] at hslot; cases hslot
    | minted slot => rw [houtcome] at hslot; cases hslot
  | some slot =>
    obtain ⟨rfl, hlive | hmem⟩ := h.own hsplit hslot
    · obtain ⟨content, hcontent⟩ := get?_of_isLive hlive
      refine ⟨content.value, (h.added.value_eq hlive).trans (value_eq_ok hcontent), .inl ?_⟩
      exact (resolve_eq_value hslot a).trans (value_eq_ok hcontent)
    · obtain ⟨entry, hentry, hid⟩ := List.mem_map.mp hmem
      obtain ⟨earlier, hearlier, value, houtcome, rfl⟩ := mem_freshEntries.mp hentry
      have hid : earlier.slot = m.slot := hid
      obtain ⟨hnew, hvalue⟩ :=
        h.value_of_fresh (hsplit ▸ List.mem_append_left _ hearlier) houtcome
      exact ⟨value, hid ▸ hvalue, .inr ⟨rfl, hid ▸ hnew, earlier, hearlier, hid, houtcome⟩⟩

end Arena

/-! ### The body -/

namespace NewContainer

/-- How the body of the container lists the members. An object has each name once, in the order of their
first occurrence, with the slot of the last member of that name. An array has the slots in order, at the
indices from zero on, and as many as it is long. -/
inductive Lists (members : List Member) : NewContainer → Body → Prop where
  | object {named : List (String × Outcome)} {table : NameTable} :
      table.names = (named.map (·.1)).eraseDups →
      (∀ before m after, members = before ++ m :: after → m.key ∉ after.map (·.key) →
        table.get? m.key = some m.slot) →
      Lists members (.object named) { content := .object, properties := table }
  | array {elements : List Outcome} :
      Lists members (.array elements)
        { content := .array
            { cells := (List.range elements.length).zip (members.map (·.slot))
              length := elements.length } }
  | function {parameters : List String} {code scope : Nat} {properties : NameTable} :
      Lists members (.function parameters code scope properties)
        { content := .function parameters code scope, properties }

variable {container : NewContainer} {members before after : List Member} {m : Member}

/-- The last member with a name counts. -/
theorem get?_ofList_last (hsplit : members = before ++ m :: after) (hlast : m.key ∉ after.map (·.key)) :
    (NameTable.ofList (members.map fun m => (m.key, m.slot))).get? m.key = some m.slot := by
  rw [NameTable.get?_ofList_eq_some_iff]
  refine ⟨before.map fun m => (m.key, m.slot), after.map fun m => (m.key, m.slot), by simp [hsplit], ?_⟩
  rwa [List.map_map]

/-- The elements of an array are in their slots, in order. -/
theorem elements?_body {elements : List Outcome} (hfits : (array elements).Fits)
    (hkeyed : members.map (fun m => (m.key, m.outcome)) = (array elements).keyed) :
    members.length = elements.length ∧
      ((array elements).body (members.map fun m => (m.key, m.slot))).elements? =
        some (.ofList (members.map (·.slot))) ∧
      (members.map (·.slot)).length ≤ maxArrayLength := by
  have hlength : members.length = elements.length := by
    simpa [keyed] using congrArg List.length hkeyed
  refine ⟨hlength, ?_, ?_⟩
  · simp only [body, Body.elements?, List.map_map, Function.comp_def]
  · rw [List.length_map, hlength]
    exact hfits

theorem lists_body (hfits : container.Fits)
    (hkeyed : members.map (fun m => (m.key, m.outcome)) = container.keyed) :
    container.Lists members (container.body (members.map fun m => (m.key, m.slot))) := by
  cases container with
  | object named =>
    refine .object ?_ fun before m after => get?_ofList_last
    rw [NameTable.names_ofList, ← show _ = named from hkeyed]
    simp only [List.map_map, Function.comp_def]
  | array elements =>
    obtain ⟨hlength, helements, hle⟩ := elements?_body hfits hkeyed
    rw [Body.eq_of_elements?_eq_some helements, Elements.ofList_eq hle, List.length_map, hlength]
    exact .array
  | function => exact .function

/-- The key of a member leads to its slot, if it is the last one with that key. -/
theorem property_body (hfits : container.Fits)
    (hkeyed : members.map (fun m => (m.key, m.outcome)) = container.keyed)
    (hsplit : members = before ++ m :: after) (hlast : m.key ∉ after.map (·.key)) :
    (container.body (members.map fun m => (m.key, m.slot))).property m.key = .aliased m.slot := by
  apply Body.property_of_slotAt?
  cases container with
  | object named => exact get?_ofList_last hsplit hlast
  | array elements =>
    obtain ⟨-, helements, hle⟩ := elements?_body hfits hkeyed
    have hat : some m.key = elements[before.length]?.map fun _ => toString before.length := by
      simpa [keyed, hsplit] using congrArg (fun l => l[before.length]?.map (·.1)) hkeyed
    obtain ⟨_, -, hkey⟩ := Option.map_eq_some_iff.mp hat.symm
    have hindex : before.length < maxArrayLength := by
      simp only [hsplit, List.length_map, List.length_append, List.length_cons] at hle
      omega
    rw [← hkey, Body.place_toString (by rw [helements]; rfl) hindex, Body.slotAt?, helements]
    refine (Elements.get?_ofList hle before.length).trans ?_
    simp [hsplit]
  | function => simp [keyed, hsplit] at hkeyed

end NewContainer

/-! ### The container -/

namespace Arena

variable {container : NewContainer} {body : Body} {c : SlotId} {a a' : Arena}

/-- `container` was built from the members `members`, and the slot `c` owns the body. -/
structure Composed (a : Arena) (container : NewContainer) (members : List Member) (body : Body)
    (c : SlotId) (a' : Arena) : Prop where
  keyed : members.map (fun m => (m.key, m.outcome)) = container.keyed
  lists : container.Lists members body
  /-- The slots of the fresh members and that of the container are new and different from each other. -/
  added : a.Added (freshEntries members ++ [(c, { value := .compound body.shape c, body := some body })]) a'
  live_eq : a'.live = a.live + 1 + container.outcomes.countP (·.isFresh)
  kept : ∀ id, a.isLive id → a'.get? id = a.get? id
  own : ∀ m ∈ members, ∀ slot, m.outcome.slot? = some slot → m.slot = slot
  /-- The key of the last member with it leads to the slot of that member. -/
  read : ∀ before m after, members = before ++ m :: after → m.key ∉ after.map (·.key) →
    a'.getProperty (.compound body.shape c) m.key = .ok (.aliased m.slot)
  /-- A member has the value that it had before, or that of a fresh member before it which got the slot
  because it was not live. -/
  value : ∀ before m after, members = before ++ m :: after →
    ∃ value, a'.value m.slot = .ok value ∧ (a.resolve m.outcome = .ok value ∨
      m.outcome.slot? = some m.slot ∧ ¬ a.isLive m.slot ∧
        ∃ earlier ∈ before, earlier.slot = m.slot ∧ earlier.outcome = .fresh value)

theorem Accounted.composed (h : a.Accounted) (hfits : container.Fits)
    (hbuild : ArenaM.build container a = .ok c a') :
    ∃ members body, a.Composed container members body c a' := by
  rw [ArenaM.build_eq_bind] at hbuild
  obtain ⟨slots, a₁, hslots, halloc⟩ := bind_eq_ok_iff.mp hbuild
  obtain ⟨members, hkeyed, rfl, hplaced⟩ := placed_of_namedSlots h hslots
  have hcontainer := ((ends_ok halloc).mp (hplaced.added.accounted.ends_allocWith _)).2.added
  have hadded := hplaced.added.trans hcontainer
  refine ⟨members, _, hkeyed, NewContainer.lists_body hfits hkeyed, hadded, ?_,
    fun id => hadded.get?_of_isLive, ?_, ?_, ?_⟩
  · have houtcomes : members.map (·.outcome) = container.outcomes := by
      rw [← container.map_snd_keyed, ← hkeyed, List.map_map]
      rfl
    rw [hadded.live_eq, List.length_append, length_freshEntries, houtcomes, List.length_singleton]
    omega
  · intro m hm slot hslot
    obtain ⟨before, after, hsplit⟩ := List.append_of_mem hm
    exact (hplaced.own hsplit hslot).1
  · intro before m after hsplit hlast
    have hbody := body_eq_ok (hcontainer.get?_added _ List.mem_cons_self) rfl
    rw [getProperty_of_body rfl hbody, NewContainer.property_body hfits hkeyed hsplit hlast]
  · intro before m after hsplit
    obtain ⟨value, hvalue, hfrom⟩ := hplaced.value hsplit
    obtain ⟨slot, hslot, -⟩ := get?_of_value hvalue
    exact ⟨value, (hcontainer.value_eq (isLive_of_get? hslot)).trans hvalue, hfrom⟩

/-- **A new container has the members that it was built from**, in every arena that a run leads to and for
all lists of members, with repeated names and repeated slots. -/
theorem build_composes (config : ArenaConfig) (calls : List ArenaCall) {container : NewContainer}
    (hfits : container.Fits) {c : SlotId} {a' : Arena} :
    let a := (new config).run calls
    ArenaM.build container a = .ok c a' →
      ∃ members body, a.Composed container members body c a' := by
  intro a hbuild
  exact ((accounted_new config).accounted_run calls).composed hfits hbuild

/-- Two of the names are repeated. One goes from a new slot to a minted one, the other from a shared slot
to a new one. -/
theorem build_composes_repeated :
    let a := (new {}).run [.alloc (.boolean true), .alloc .undefined]
    let container : NewContainer := .object
      [("x", .fresh .null), ("y", .aliased ⟨0⟩), ("x", .minted ⟨1⟩), ("y", .fresh (.text "z"))]
    let a' := stateAfter (ArenaM.build container) a
    container.Fits ∧ ArenaM.build container a = .ok ⟨4⟩ a' ∧
      ∃ members body, a.Composed container members body ⟨4⟩ a' := by
  intro a container a'
  have hfits : container.Fits := trivial
  have hbuild : ArenaM.build container a = .ok ⟨4⟩ a' := rfl
  exact ⟨hfits, hbuild, build_composes {} [.alloc (.boolean true), .alloc .undefined] hfits hbuild⟩

/-- The second element was made from a slot that was not live. It reads as the first one, not as before. -/
theorem build_composes_reused :
    let a := (new {}).run []
    let container : NewContainer := .array [.fresh .null, .aliased ⟨0⟩]
    let a' := stateAfter (ArenaM.build container) a
    container.Fits ∧ ArenaM.build container a = .ok ⟨1⟩ a' ∧
      a'.getProperty (.compound .array ⟨1⟩) "1" = .ok (.aliased ⟨0⟩) ∧
      a'.resolve (.aliased ⟨0⟩) = .ok .null ∧
      a.resolve (.aliased ⟨0⟩) = .error (.danglingSlot ⟨0⟩) ∧
      a'.resolve (.aliased ⟨0⟩) ≠ a.resolve (.aliased ⟨0⟩) := by
  intro a container a'
  have hfits : container.Fits := show 2 ≤ maxArrayLength by decide
  have hbefore : a.resolve (.aliased ⟨0⟩) = .error (.danglingSlot ⟨0⟩) := rfl
  have hafter : a'.resolve (.aliased ⟨0⟩) = .ok .null := rfl
  refine ⟨hfits, rfl, by decide +kernel, hafter, hbefore, ?_⟩
  rw [hbefore, hafter]
  rintro ⟨⟩

end Arena

end SlotScript
