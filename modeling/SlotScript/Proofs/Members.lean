import SlotScript.Arena.Property

/-!
# Members of tables and bodies

Which slots a table of names, the elements of an array and a body refer to after a change: those that
were there and the one that was put in.
-/

namespace SlotScript

/-- What a look-up finds is in the list. -/
theorem mem_of_lookup_eq_some {α β : Type} [BEq α] [LawfulBEq α] {entries : List (α × β)} {key : α}
    {x : β} (h : entries.lookup key = some x) : (key, x) ∈ entries := by
  obtain ⟨before, after, rfl, -⟩ := List.lookup_eq_some_iff.mp h
  exact List.mem_append_right _ List.mem_cons_self

/-- Where no key is there twice, a look-up finds just what is in the list. -/
theorem lookup_eq_some_iff_mem {α β : Type} [BEq α] [LawfulBEq α] {entries : List (α × β)} {key : α}
    {x : β} (h : (entries.map (·.1)).Nodup) : entries.lookup key = some x ↔ (key, x) ∈ entries := by
  refine ⟨mem_of_lookup_eq_some, fun hmem => ?_⟩
  obtain ⟨before, after, rfl⟩ := List.append_of_mem hmem
  rw [List.map_append, List.map_cons] at h
  refine List.lookup_eq_some_iff.mpr ⟨before, after, rfl, fun entry hentry => bne_iff_ne.mpr ?_⟩
  rintro rfl
  exact (List.nodup_append.mp h).2.2 _ (List.mem_map_of_mem hentry) _ List.mem_cons_self rfl

/-! ### Tables of names -/

namespace NameTable

theorem mem_slots_of_get? {t : NameTable} {name : String} {slot : SlotId}
    (h : t.get? name = some slot) : slot ∈ t.slots :=
  List.mem_map_of_mem (f := Prod.snd) (mem_of_lookup_eq_some h)

theorem mem_getThenInsert_go {name : String} {slot : SlotId} {entries : List (String × SlotId)}
    {entry : String × SlotId} (h : entry ∈ (getThenInsert.go name slot entries).2) :
    entry = (name, slot) ∨ entry ∈ entries := by
  induction entries with
  | nil => exact .inl (List.mem_singleton.mp h)
  | cons first rest ih =>
    unfold getThenInsert.go at h
    split at h
    · rcases List.mem_cons.mp h with rfl | hrest
      · exact .inl rfl
      · exact .inr (List.mem_cons_of_mem _ hrest)
    · rcases List.mem_cons.mp h with rfl | hrest
      · exact .inr List.mem_cons_self
      · exact (ih hrest).imp_right (List.mem_cons_of_mem _)

theorem mem_slots_insert {t : NameTable} {name : String} {slot other : SlotId}
    (h : other ∈ (t.insert name slot).slots) : other = slot ∨ other ∈ t.slots := by
  obtain ⟨entry, hentry, rfl⟩ := List.mem_map.mp h
  rcases mem_getThenInsert_go hentry with rfl | hold
  · exact .inl rfl
  · exact .inr (List.mem_map_of_mem hold)

theorem mem_slots_getThenErase {t : NameTable} {name : String} {slot : SlotId}
    (h : slot ∈ (t.getThenErase name).2.slots) : slot ∈ t.slots := by
  obtain ⟨entry, hentry, rfl⟩ := List.mem_map.mp h
  exact List.mem_map_of_mem (List.mem_filter.mp hentry).1

theorem mem_slots_ofList {entries : List (String × SlotId)} {slot : SlotId}
    (h : slot ∈ (ofList entries).slots) : slot ∈ entries.map (·.2) := by
  have hfold (t : NameTable) :
      slot ∈ (entries.foldl (fun t entry => t.insert entry.1 entry.2) t).slots →
        slot ∈ t.slots ∨ slot ∈ entries.map (·.2) := by
    clear h
    induction entries generalizing t with
    | nil => exact .inl
    | cons entry rest ih =>
      intro h
      rcases ih _ h with hinsert | hrest
      · rcases mem_slots_insert hinsert with rfl | hold
        · exact .inr List.mem_cons_self
        · exact .inl hold
      · exact .inr (List.mem_cons_of_mem _ hrest)
  rcases hfold ∅ h with hempty | hmem
  · cases hempty
  · exact hmem

end NameTable

/-! ### Elements -/

namespace Elements

theorem mem_slots_of_get? {e : Elements} {index : Nat} {slot : SlotId}
    (h : e.get? index = some slot) : slot ∈ e.slots :=
  List.mem_map_of_mem (f := Prod.snd) (mem_of_lookup_eq_some h)

theorem mem_insertCell {index : Nat} {slot : SlotId} {cells : List (Nat × SlotId)}
    {cell : Nat × SlotId} (h : cell ∈ insertCell index slot cells) :
    cell = (index, slot) ∨ cell ∈ cells := by
  induction cells with
  | nil => exact .inl (List.mem_singleton.mp h)
  | cons first rest ih =>
    unfold insertCell at h
    split at h
    · exact List.mem_cons.mp h
    · split at h
      · rcases List.mem_cons.mp h with rfl | hrest
        · exact .inl rfl
        · exact .inr (List.mem_cons_of_mem _ hrest)
      · rcases List.mem_cons.mp h with rfl | hrest
        · exact .inr List.mem_cons_self
        · exact (ih hrest).imp_right (List.mem_cons_of_mem _)

theorem mem_slots_set {e : Elements} {index : Nat} {slot other : SlotId}
    (h : other ∈ (e.set index slot).slots) : other = slot ∨ other ∈ e.slots := by
  obtain ⟨cell, hcell, rfl⟩ := List.mem_map.mp h
  rcases mem_insertCell hcell with rfl | hold
  · exact .inl rfl
  · exact .inr (List.mem_map_of_mem hold)

theorem mem_slots_push {e : Elements} {slot other : SlotId} (h : other ∈ (e.push slot).slots) :
    other = slot ∨ other ∈ e.slots := by
  unfold push at h
  split at h
  · exact mem_slots_set h
  · exact .inr h

theorem mem_slots_setLength {e : Elements} {length : Nat} {slot : SlotId}
    (h : slot ∈ (e.setLength length).slots) : slot ∈ e.slots := by
  unfold setLength at h
  obtain ⟨cell, hcell, rfl⟩ := List.mem_map.mp h
  simp only at hcell
  split at hcell
  · exact List.mem_map_of_mem (List.mem_filter.mp hcell).1
  · exact List.mem_map_of_mem hcell

theorem mem_slots_ofList {slots : List SlotId} {slot : SlotId}
    (h : slot ∈ (ofList slots).slots) : slot ∈ slots := by
  have hfold (e : Elements) : slot ∈ (slots.foldl push e).slots → slot ∈ e.slots ∨ slot ∈ slots := by
    clear h
    induction slots generalizing e with
    | nil => exact .inl
    | cons first rest ih =>
      intro h
      rcases ih _ h with hpush | hrest
      · rcases mem_slots_push hpush with rfl | hold
        · exact .inr List.mem_cons_self
        · exact .inl hold
      · exact .inr (List.mem_cons_of_mem _ hrest)
  rcases hfold ∅ h with hempty | hmem
  · cases hempty
  · exact hmem

end Elements

/-! ### Bodies -/

namespace Body

theorem mem_members_iff {b : Body} {slot : SlotId} :
    slot ∈ b.members ↔ (∃ e, b.elements? = some e ∧ slot ∈ e.slots) ∨ slot ∈ b.properties.slots := by
  unfold members
  rw [List.mem_append]
  cases b.elements? <;> simp

theorem elements?_mapElements (f : Elements → Elements) (b : Body) :
    (b.mapElements f).elements? = b.elements?.map f := by
  obtain ⟨content, _⟩ := b
  cases content <;> rfl

theorem properties_mapElements (f : Elements → Elements) (b : Body) :
    (b.mapElements f).properties = b.properties := by
  obtain ⟨content, _⟩ := b
  cases content <;> rfl

theorem mem_members_of_slotAt? {b : Body} {place : Place} {slot : SlotId}
    (h : b.slotAt? place = some slot) : slot ∈ b.members := by
  rw [mem_members_iff]
  cases place with
  | element index =>
    obtain ⟨e, he, hslot⟩ := Option.bind_eq_some_iff.mp h
    exact .inl ⟨e, he, Elements.mem_slots_of_get? hslot⟩
  | length => cases h
  | property name => exact .inr (NameTable.mem_slots_of_get? h)

theorem mem_members_mapElements {f : Elements → Elements} {b : Body} {slot : SlotId}
    (h : slot ∈ (b.mapElements f).members) :
    slot ∈ b.members ∨ ∃ e, b.elements? = some e ∧ slot ∈ (f e).slots := by
  rw [mem_members_iff, elements?_mapElements, properties_mapElements] at h
  rcases h with ⟨e, he, hslot⟩ | hslot
  · obtain ⟨e', he', rfl⟩ := Option.map_eq_some_iff.mp he
    exact .inr ⟨e', he', hslot⟩
  · exact .inl (mem_members_iff.mpr (.inr hslot))

theorem mem_members_setLength {b : Body} {length : Nat} {slot : SlotId}
    (h : slot ∈ (b.mapElements (·.setLength length)).members) : slot ∈ b.members := by
  rcases mem_members_mapElements h with hold | ⟨e, he, hslot⟩
  · exact hold
  · exact mem_members_iff.mpr (.inl ⟨e, he, Elements.mem_slots_setLength hslot⟩)

theorem mem_members_putSlot {b : Body} {place : Place} {slot other : SlotId}
    (h : other ∈ (b.putSlot place slot).members) : other = slot ∨ other ∈ b.members := by
  cases place with
  | element index =>
    rcases mem_members_mapElements h with hold | ⟨e, he, hslot⟩
    · exact .inr hold
    · rcases Elements.mem_slots_set hslot with rfl | hold
      · exact .inl rfl
      · exact .inr (mem_members_iff.mpr (.inl ⟨e, he, hold⟩))
  | length => exact .inr h
  | property name =>
    rcases mem_members_iff.mp h with helement | hproperty
    · exact .inr (mem_members_iff.mpr (.inl helement))
    · rcases NameTable.mem_slots_insert hproperty with rfl | hold
      · exact .inl rfl
      · exact .inr (mem_members_iff.mpr (.inr hold))

end Body

end SlotScript
