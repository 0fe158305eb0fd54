import SlotScript.Proofs.Arena.Closed

/-!
# What is added

`Arena.Added a added a'`: going from `a` to `a'` added the slots that are listed, each with what it holds,
and changed no other slot. Whatever only builds adds slots, whether it succeeds or fails (`adds`).

Members get their slots one after the other (`Arena.Placed`, `placed_of_namedSlots`). A member that was made
from a slot has that one, and a slot is added for each fresh value, in the same order
(`added_of_elementSlots`).
-/

namespace SlotScript

namespace Arena

/-- `a'` is `a` with the slots `added`, which were not live. -/
structure Added (a : Arena) (added : List (SlotId × Slot)) (a' : Arena) : Prop where
  accounted : a'.Accounted
  not_isLive : ∀ entry ∈ added, ¬ a.isLive entry.1
  nodup : (added.map (·.1)).Nodup
  get?_added : ∀ entry ∈ added, a'.get? entry.1 = some entry.2
  get?_eq : ∀ id, id ∉ added.map (·.1) → a'.get? id = a.get? id
  config_eq : a'.config = a.config
  live_eq : a'.live = a.live + added.length
  total_eq : a'.total = a.total + added.length

variable {a a' a'' : Arena}

theorem Accounted.added_nil (h : a.Accounted) : a.Added [] a where
  accounted := h
  not_isLive := List.forall_mem_nil _
  nodup := List.nodup_nil
  get?_added := List.forall_mem_nil _
  get?_eq _ _ := rfl
  config_eq := rfl
  live_eq := rfl
  total_eq := rfl

theorem Allocated.added {id : SlotId} {slot : Slot} (h : a.Allocated id slot a') :
    a.Added [(id, slot)] a' where
  accounted := h.accounted
  not_isLive := List.forall_mem_singleton.mpr h.not_isLive
  nodup := List.nodup_singleton id
  get?_added := List.forall_mem_singleton.mpr ((h.get?_eq id).trans (if_pos rfl))
  get?_eq other hother := by
    rw [h.get?_eq, if_neg]
    exact fun heq => hother (List.mem_singleton.mpr heq)
  config_eq := h.config_eq
  live_eq := h.live_eq
  total_eq := h.total_eq

variable {added more : List (SlotId × Slot)}

/-- A slot that was live stays as it was. -/
theorem Added.get?_of_isLive (h : a.Added added a') {id : SlotId} (hid : a.isLive id) :
    a'.get? id = a.get? id := by
  apply h.get?_eq
  intro hmem
  obtain ⟨entry, hentry, rfl⟩ := List.mem_map.mp hmem
  exact h.not_isLive entry hentry hid

theorem Added.isLive (h : a.Added added a') {id : SlotId} (hid : a.isLive id) : a'.isLive id := by
  rw [Arena.isLive, h.get?_of_isLive hid]
  exact hid

theorem Added.isLive_or_mem {added : List (SlotId × Slot)} (h : a.Added added a') {id : SlotId}
    (hid : a'.isLive id) : a.isLive id ∨ id ∈ added.map (·.1) := by
  by_cases hmem : id ∈ added.map (·.1)
  · exact .inr hmem
  · rw [Arena.isLive, h.get?_eq id hmem] at hid
    exact .inl hid

theorem Added.isLive_added (h : a.Added added a') {entry : SlotId × Slot} (hentry : entry ∈ added) :
    a'.isLive entry.1 := isLive_of_get? (h.get?_added entry hentry)

theorem Added.trans (h : a.Added added a') (h' : a'.Added more a'') :
    a.Added (added ++ more) a'' where
  accounted := h'.accounted
  not_isLive entry hentry := by
    rcases List.mem_append.mp hentry with hold | hnew
    · exact h.not_isLive entry hold
    · exact fun hlive => h'.not_isLive entry hnew (h.isLive hlive)
  nodup := by
    rw [List.map_append, List.nodup_append]
    refine ⟨h.nodup, h'.nodup, ?_⟩
    rintro id hold _ hnew rfl
    obtain ⟨entry, hentry, rfl⟩ := List.mem_map.mp hold
    obtain ⟨entry', hentry', heq⟩ := List.mem_map.mp hnew
    -- What is added first is live when the rest is added.
    exact h'.not_isLive entry' hentry' (heq ▸ h.isLive_added hentry)
  get?_added entry hentry := by
    rcases List.mem_append.mp hentry with hold | hnew
    · rw [h'.get?_of_isLive (h.isLive_added hold)]
      exact h.get?_added entry hold
    · exact h'.get?_added entry hnew
  get?_eq id hid := by
    rw [List.map_append, List.mem_append, not_or] at hid
    rw [h'.get?_eq id hid.2, h.get?_eq id hid.1]
  config_eq := h'.config_eq.trans h.config_eq
  live_eq := by rw [h'.live_eq, h.live_eq, List.length_append, Nat.add_assoc]
  total_eq := by rw [h'.total_eq, h.total_eq, List.length_append, Nat.add_assoc]

/-- Some slots were added to an arena whose numbers are in step, and nothing else happened to it. -/
def Adds (a a' : Arena) : Prop := a.Accounted → ∃ added, a.Added added a'

instance : IsPreorder Arena Adds where
  refl _ h := ⟨[], h.added_nil⟩
  trans _ _ _ hab hbc h := by
    obtain ⟨added, hadded⟩ := hab h
    obtain ⟨more, hmore⟩ := hbc hadded.accounted
    exact ⟨added ++ more, hadded.trans hmore⟩

end Arena

namespace ArenaM

open Arena (Adds)

theorem adds_allocWith (content : SlotId → Slot) : Always Adds (allocWith content) := by
  intro a
  by_cases h : a.Accounted
  · refine (h.ends_allocWith content).mono (fun _ a' ha' _ => ⟨_, ha'.2.added⟩) fun _ a' ha' _ => ?_
    rw [ha'.2.2]
    exact ⟨[], h.added_nil⟩
  · unfold Ends
    split <;> exact fun h' => absurd h' h

/-- What only builds adds slots and changes none, in either end. -/
theorem adds : Building (Always Adds) where
  pure := always_pure
  bind := Always.bind
  read _ := always_read _
  alloc _ := adds_allocWith _
  allocBody _ _ := adds_allocWith _

end ArenaM

/-! ### Members and their slots -/

/-- The value of an outcome that is stored nowhere. -/
def Outcome.fresh? : Outcome → Option Value
  | fresh value => some value
  | _ => none

theorem Outcome.fresh?_eq_some_iff {outcome : Outcome} {value : Value} :
    outcome.fresh? = some value ↔ outcome = .fresh value := by
  cases outcome <;> simp [fresh?]

/-- The slots that outcomes need of their own: one for each fresh value. -/
def freshSlots (outcomes : List Outcome) : List Slot :=
  (outcomes.filterMap Outcome.fresh?).map fun value => { value }

/-- A member of a new container: the key under which it is read, what it was made from, and its slot. -/
structure Member where
  key : String
  outcome : Outcome
  slot : SlotId

/-- The slots that are new: one for each fresh value, which is in it. -/
def freshEntries (members : List Member) : List (SlotId × Slot) :=
  members.filterMap fun m => m.outcome.fresh?.map fun value => (m.slot, { value })

theorem freshEntries_append (members more : List Member) :
    freshEntries (members ++ more) = freshEntries members ++ freshEntries more := List.filterMap_append

theorem mem_freshEntries {members : List Member} {entry : SlotId × Slot} :
    entry ∈ freshEntries members ↔
      ∃ m ∈ members, ∃ value, m.outcome = .fresh value ∧ entry = (m.slot, { value }) := by
  simp only [freshEntries, List.mem_filterMap, Option.map_eq_some_iff, Outcome.fresh?_eq_some_iff,
    eq_comm (a := entry)]

theorem map_snd_freshEntries (members : List Member) :
    (freshEntries members).map (·.2) = freshSlots (members.map (·.outcome)) := by
  simp only [freshEntries, freshSlots, List.map_filterMap, List.filterMap_map, Option.map_map,
    Function.comp_def]

namespace ArenaM

/-- Elements get their slots as named members do. -/
theorem elementSlots_eq_map (members : List (String × Outcome)) :
    elementSlots (members.map (·.2)) = List.map (·.2) <$> namedSlots members := by
  induction members with
  | nil => rfl
  | cons member rest ih =>
    simp only [namedSlots, elementSlots, List.map_cons, ih, map_eq_pure_bind, bind_assoc, pure_bind]

/-- A member gets the slot of its outcome, or a new one for a fresh value. -/
theorem memberSlot_cases {a a' : Arena} (h : a.Accounted) {outcome : Outcome} {r : SlotId × Bool}
    (hmember : memberSlot outcome a = .ok r a') :
    (outcome.slot? = some r.1 ∧ a.isLive r.1 ∧ a' = a) ∨
      ∃ value, outcome = .fresh value ∧ a.Added [(r.1, { value })] a' := by
  cases outcome with
  | fresh value =>
    obtain ⟨id, _, halloc, ⟨⟩⟩ := bind_eq_ok_iff.mp hmember
    exact .inr ⟨value, rfl, ((ends_ok halloc).mp (h.ends_allocWith _)).2.added⟩
  | aliased slot =>
    obtain ⟨s, hs, ⟨⟩⟩ := read_bind_eq_ok_iff.mp hmember
    exact .inl ⟨rfl, Arena.isLive_of_get? (Arena.get?_of_get hs), rfl⟩
  | minted slot =>
    obtain ⟨s, hs, ⟨⟩⟩ := read_bind_eq_ok_iff.mp hmember
    exact .inl ⟨rfl, Arena.isLive_of_get? (Arena.get?_of_get hs), rfl⟩

end ArenaM

namespace Arena

variable {a a₁ a' : Arena} {members more : List Member} {m : Member}

/-- The members got their slots in turn. One that was made from a slot has it, which was live or is that
of a fresh member before. -/
structure Placed (a : Arena) (members : List Member) (a' : Arena) : Prop where
  added : a.Added (freshEntries members) a'
  own : ∀ {before m after slot}, members = before ++ m :: after → m.outcome.slot? = some slot →
    m.slot = slot ∧ (a.isLive slot ∨ slot ∈ (freshEntries before).map (·.1))

theorem Accounted.placed_nil (h : a.Accounted) : a.Placed [] a where
  added := h.added_nil
  own hsplit _ := by simp at hsplit

/-- One member more, before the others. -/
theorem Placed.cons (hadded : a.Added (freshEntries [m]) a₁)
    (hown : ∀ slot, m.outcome.slot? = some slot → m.slot = slot ∧ a.isLive slot)
    (h : a₁.Placed more a') : a.Placed (m :: more) a' where
  added := by
    rw [← List.singleton_append, freshEntries_append]
    exact hadded.trans h.added
  own {before other after slot} hsplit hslot := by
    cases before with
    | nil =>
      obtain ⟨rfl, rfl⟩ := List.cons.inj hsplit
      exact (hown slot hslot).imp_right .inl
    | cons first before =>
      obtain ⟨rfl, hmore⟩ := List.cons.inj hsplit
      obtain ⟨hother, hlive⟩ := h.own hmore hslot
      refine ⟨hother, ?_⟩
      rw [← List.singleton_append, freshEntries_append, List.map_append, List.mem_append]
      -- What is live after the first member was live before it, or is its slot.
      rcases hlive with hlive | hmem
      · exact (hadded.isLive_or_mem hlive).imp_right .inl
      · exact .inr (.inr hmem)

theorem added_of_memberSlot (h : a.Accounted) (key : String) {outcome : Outcome} {r : SlotId × Bool}
    (hmember : ArenaM.memberSlot outcome a = .ok r a') :
    a.Added (freshEntries [⟨key, outcome, r.1⟩]) a' ∧
      ∀ slot, outcome.slot? = some slot → r.1 = slot ∧ a.isLive slot := by
  rcases ArenaM.memberSlot_cases h hmember with ⟨hslot, hlive, rfl⟩ | ⟨value, rfl, hadded⟩
  · have hnone : freshEntries [⟨key, outcome, r.1⟩] = [] := by
      cases outcome with
      | fresh value => cases hslot
      | aliased slot => rfl
      | minted slot => rfl
    refine ⟨hnone ▸ h.added_nil, fun slot hown => ?_⟩
    obtain rfl := Option.some.inj (hown.symm.trans hslot)
    exact ⟨rfl, hlive⟩
  · exact ⟨hadded, fun slot hown => by cases hown⟩

/-- The members get their slots in turn. -/
theorem placed_of_namedSlots (h : a.Accounted) {named : List (String × Outcome)}
    {slots : List (String × SlotId)} (hact : ArenaM.namedSlots named a = .ok slots a') :
    ∃ members : List Member, members.map (fun m => (m.key, m.outcome)) = named ∧
      members.map (fun m => (m.key, m.slot)) = slots ∧ a.Placed members a' := by
  induction named generalizing a slots with
  | nil =>
    cases hact
    exact ⟨[], rfl, rfl, h.placed_nil⟩
  | cons member rest ih =>
    obtain ⟨r, a₁, hfirst, hact⟩ := bind_eq_ok_iff.mp hact
    obtain ⟨others, a₂, hrest, ⟨⟩⟩ := bind_eq_ok_iff.mp hact
    obtain ⟨hadded, hown⟩ := added_of_memberSlot h member.1 hfirst
    obtain ⟨members, rfl, rfl, hplaced⟩ := ih hadded.accounted hrest
    exact ⟨⟨member.1, member.2, r.1⟩ :: members, rfl, rfl, .cons hadded hown hplaced⟩

end Arena

/-- What the slots for elements add: one for each fresh value, in order. -/
theorem ArenaM.added_of_elementSlots {a a' : Arena} (h : a.Accounted) {elements : List Outcome}
    {slots : List SlotId} (hact : elementSlots elements a = .ok slots a') :
    ∃ added, added.map (·.2) = freshSlots elements ∧ a.Added added a' := by
  have helements : elements = (elements.map fun element => ("", element)).map (·.2) := by
    simp only [List.map_map, Function.comp_def, List.map_id']
  rw [helements, elementSlots_eq_map, map_eq_ok_iff] at hact
  obtain ⟨named, hnamed, -⟩ := hact
  obtain ⟨members, hmembers, -, hplaced⟩ := Arena.placed_of_namedSlots h hnamed
  have houtcomes : members.map (·.outcome) = elements := by
    rw [helements, ← hmembers]
    simp only [List.map_map, Function.comp_def]
  exact ⟨freshEntries members, houtcomes ▸ map_snd_freshEntries members, hplaced.added⟩

end SlotScript
