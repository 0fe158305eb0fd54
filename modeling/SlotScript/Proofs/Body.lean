import SlotScript.Proofs.Members

/-!
# How bodies change

The elements of an array are `Indexed` if each of them lies below the length. The bodies of new containers
are, and writes keep them so.

A write to a place without a slot makes the body gain one entry there and nothing else (`Body.Gains`,
`gains_putSlot`). A change of the length cuts off the elements from the new length on
(`resizes_setLength`). Whatever is there in either case keeps its slot, unless it is cut off
(`Body.Retains`).
-/

namespace SlotScript

namespace NameTable

/-- A new name goes to the end. -/
theorem insert_of_get?_eq_none {t : NameTable} {name : String} (h : t.get? name = none)
    (slot : SlotId) : (t.insert name slot).entries = t.entries ++ [(name, slot)] := by
  obtain ⟨entries⟩ := t
  have hgo : ∀ entries : List (String × SlotId), entries.lookup name = none →
      (getThenInsert.go name slot entries).2 = entries ++ [(name, slot)] := by
    intro entries h
    induction entries with
    | nil => rfl
    | cons entry rest ih =>
      obtain ⟨first, other⟩ := entry
      rw [List.lookup_cons] at h
      split at h
      · cases h
      · next hne =>
        have hfirst : first ≠ name := fun heq => (beq_eq_false_iff_ne.mp hne) heq.symm
        simp only [getThenInsert.go, if_neg hfirst, ih h, List.cons_append]
  exact hgo entries h

end NameTable

/-! ### Elements -/

namespace Elements

/-- Each index with a slot is below the length. -/
def Indexed (e : Elements) : Prop := ∀ index slot, e.get? index = some slot → index < e.length

variable {e : Elements}

theorem indexed_empty : (∅ : Elements).Indexed := by
  intro index slot h
  cases h

theorem length_set (e : Elements) {index : Nat} (h : index < maxArrayLength) (slot : SlotId) :
    (e.set index slot).length = max e.length (index + 1) := by
  simp only [set]
  split <;> omega

theorem Indexed.set (h : e.Indexed) {index : Nat} (hindex : index < maxArrayLength) (slot : SlotId) :
    (e.set index slot).Indexed := by
  intro other slot' hother
  rw [get?_set] at hother
  rw [length_set e hindex]
  split at hother
  · omega
  · have := h other slot' hother
    omega

theorem Indexed.push (h : e.Indexed) (slot : SlotId) : (e.push slot).Indexed := by
  unfold Elements.push
  split
  · next hlt => exact h.set hlt slot
  · exact h

/-- The elements of a new array are indexed. -/
theorem indexed_ofList (slots : List SlotId) : (ofList slots).Indexed := by
  have hfold : ∀ (slots : List SlotId) {e : Elements}, e.Indexed → (slots.foldl push e).Indexed := by
    intro slots
    induction slots with
    | nil => exact fun h => h
    | cons slot rest ih => exact fun h => ih (h.push slot)
  exact hfold slots indexed_empty

/-- A change of the length cuts off the elements from the new length on. -/
theorem Indexed.get?_setLength (h : e.Indexed) (length index : Nat) :
    (e.setLength length).get? index = if index < length then e.get? index else none := by
  rw [Elements.get?_setLength]
  by_cases hlt : index < length
  · rw [if_pos (.inr hlt), if_pos hlt]
  · rw [if_neg hlt]
    split
    · -- The length does not get less, so there was nothing to cut off.
      cases hslot : e.get? index with
      | none => rfl
      | some slot =>
        have := h index slot hslot
        omega
    · rfl

theorem Indexed.setLength (h : e.Indexed) (length : Nat) : (e.setLength length).Indexed := by
  intro index slot hslot
  rw [h.get?_setLength] at hslot
  split at hslot
  · next hlt => exact hlt
  · cases hslot

end Elements

/-! ### Places -/

/-- The index in a place is one that an array can have. -/
def Place.Fits : Place → Prop
  | .element index => index < maxArrayLength
  | _ => True

theorem lt_of_arrayIndex? {key : String} {index : Nat} (h : arrayIndex? key = some index) :
    index < maxArrayLength := by
  unfold arrayIndex? at h
  dsimp only at h
  split at h
  · split at h
    · next hlt => exact Option.some.inj h ▸ hlt
    · cases h
  · cases h

namespace Body

variable {b b' : Body} {key : String} {slot : SlotId} {place : Place}

theorem place_fits (b : Body) (key : String) : (b.place key).Fits := by
  unfold place
  split
  · next hindex => exact lt_of_arrayIndex? hindex
  · split <;> trivial
  · trivial

/-- What a key addresses depends on whether the body is that of an array. -/
theorem place_congr (h : b'.elements?.isSome = b.elements?.isSome) (key : String) :
    b'.place key = b.place key := by
  unfold place
  cases hb : b.elements? with
  | none =>
    rw [hb, Option.isSome_none, Option.isSome_eq_false_iff, Option.isNone_iff_eq_none] at h
    rw [h]
  | some e =>
    rw [hb, Option.isSome_some] at h
    obtain ⟨e', he'⟩ := Option.isSome_iff_exists.mp h
    rw [he']
    cases arrayIndex? key <;> rfl

theorem elements?_of_place_eq_element {index : Nat} (h : b.place key = .element index) :
    ∃ e, b.elements? = some e := by
  unfold place at h
  split at h
  · exact ⟨_, ‹_›⟩
  · exact ⟨_, ‹_›⟩
  · cases h

theorem arrayIndex?_of_place {index : Nat} (h : b.place key = .element index) :
    arrayIndex? key = some index := by
  unfold place at h
  split at h
  · next hindex => cases h; exact hindex
  · split at h <;> cases h
  · cases h

theorem eq_of_elements?_eq_some {e : Elements} (h : b.elements? = some e) :
    b = ⟨.array e, b.properties⟩ := by
  obtain ⟨content, properties⟩ := b
  cases content with
  | array elements => cases h; rfl
  | _ => cases h

/-- The length is addressed by its name, in arrays. -/
theorem place_eq_length_iff : b.place key = .length ↔ b.elements?.isSome ∧ key = lengthKey := by
  have hindex : arrayIndex? lengthKey = none := by decide +kernel
  unfold place
  cases b.elements? with
  | none => simp
  | some e =>
    by_cases hkey : key = lengthKey
    · subst hkey
      simp [hindex]
    · cases arrayIndex? key <;> simp [hkey]

theorem property_of_slotAt? (h : b.slotAt? (b.place key) = some slot) :
    b.property key = .aliased slot := by
  unfold property
  cases hplace : b.place key with
  | length => rw [hplace] at h; cases h
  | element index => rw [hplace] at h; simp only [h]
  | property name => rw [hplace] at h; simp only [h]

theorem slotAt?_of_property (h : b.property key = .aliased slot) :
    b.slotAt? (b.place key) = some slot := by
  unfold property at h
  split at h
  · cases h
  · split at h
    · next hslot => cases h; exact hslot
    · cases h

theorem property_ne_minted (b : Body) (key : String) (slot : SlotId) :
    b.property key ≠ .minted slot := by
  unfold property
  repeat' split
  all_goals exact Outcome.noConfusion

/-! ### Indexed bodies -/

/-- If the body is that of an array, the elements are indexed. -/
def Indexed (b : Body) : Prop := ∀ e, b.elements? = some e → e.Indexed

/-- The bodies that new containers get: the elements of an array were put into an empty one in turn. -/
def Built (b : Body) : Prop := ∀ e, b.elements? = some e → ∃ slots, e = .ofList slots

theorem Built.indexed (h : b.Built) : b.Indexed := by
  intro e he
  obtain ⟨slots, rfl⟩ := h e he
  exact Elements.indexed_ofList slots

theorem Indexed.mapElements (h : b.Indexed) {f : Elements → Elements}
    (hf : ∀ e : Elements, e.Indexed → (f e).Indexed) : (b.mapElements f).Indexed := by
  intro e he
  rw [elements?_mapElements] at he
  obtain ⟨old, hold, rfl⟩ := Option.map_eq_some_iff.mp he
  exact hf old (h old hold)

theorem Indexed.putSlot (h : b.Indexed) (hplace : place.Fits) (slot : SlotId) :
    (b.putSlot place slot).Indexed := by
  cases place with
  | element index => exact h.mapElements fun e he => he.set hplace slot
  | length => exact h
  | property name => exact h

/-! ### Gaining an entry -/

/-- The second body is the first one with one entry more, which has the slot: an element that raises the
length where it must, or a property after those that are there. -/
inductive Gains (slot : SlotId) : Place → Body → Body → Prop where
  | element {index : Nat} {e e' : Elements} {properties : NameTable} :
      (∀ other, e'.get? other = if other = index then some slot else e.get? other) →
      e'.length = max e.length (index + 1) →
      Gains slot (.element index) ⟨.array e, properties⟩ ⟨.array e', properties⟩
  | property {name : String} {content : Content} {properties properties' : NameTable} :
      properties'.entries = properties.entries ++ [(name, slot)] →
      Gains slot (.property name) ⟨content, properties⟩ ⟨content, properties'⟩

/-- Putting a slot where a key addresses none makes the body gain an entry. -/
theorem gains_putSlot (hplace : b.place key ≠ .length) (hnone : b.slotAt? (b.place key) = none)
    (slot : SlotId) : b.Gains slot (b.place key) (b.putSlot (b.place key) slot) := by
  have hfits := b.place_fits key
  cases hkey : b.place key with
  | length => exact absurd hkey hplace
  | element index =>
    rw [hkey] at hfits
    obtain ⟨e, he⟩ := elements?_of_place_eq_element hkey
    rw [eq_of_elements?_eq_some he]
    exact .element (fun other => e.get?_set index other slot) (e.length_set hfits slot)
  | property name =>
    rw [hkey] at hnone
    exact .property (NameTable.insert_of_get?_eq_none hnone slot)

theorem Gains.isSome_elements? (h : b.Gains slot place b') :
    b'.elements?.isSome = b.elements?.isSome := by
  cases h <;> rfl

theorem Gains.slotAt?_eq (h : b.Gains slot place b') (hnone : b.slotAt? place = none) :
    b'.slotAt? place = some slot := by
  cases h with
  | @element index _ _ _ hget _ => exact (hget index).trans (if_pos rfl)
  | @property name _ properties _ hentries =>
    have hnone : properties.entries.lookup name = none := hnone
    simp only [slotAt?, NameTable.get?, hentries, List.lookup_append, hnone, Option.none_or,
      List.lookup_cons_self]

/-- What is gained is found under the key. -/
theorem Gains.property_eq (h : b.Gains slot (b.place key) b') (hnone : b.slotAt? (b.place key) = none) :
    b'.property key = .aliased slot := by
  apply property_of_slotAt?
  rw [place_congr h.isSome_elements? key]
  exact h.slotAt?_eq hnone

/-! ### Changing the length -/

/-- The second body is that of the same array with another length: the elements from there on are gone,
and nothing else is different. -/
inductive Resizes (length : Nat) : Body → Body → Prop where
  | array {e e' : Elements} {properties : NameTable} : e'.length = length →
      (∀ index, e'.get? index = if index < length then e.get? index else none) →
      Resizes length ⟨.array e, properties⟩ ⟨.array e', properties⟩

theorem resizes_setLength (h : b.Indexed) {e : Elements} (he : b.elements? = some e) (length : Nat) :
    b.Resizes length (b.mapElements (·.setLength length)) := by
  rw [eq_of_elements?_eq_some he]
  exact .array rfl ((h e he).get?_setLength length)

/-- The length that is set is read. -/
theorem Resizes.property_eq {length : Nat} (h : b.Resizes length b') :
    b'.property lengthKey = .fresh (.number (.ofNat length)) := by
  cases h with
  | @array e e' properties hlength _ =>
    have hplace : Body.place ⟨.array e', properties⟩ lengthKey = .length :=
      place_eq_length_iff.mpr ⟨rfl, rfl⟩
    rw [property, hplace]
    exact congrArg (fun n => Outcome.fresh (.number (.ofNat n))) hlength

/-! ### Keeping the slots -/

/-- The second body has what the first one has, in the same slots: properties follow those that were
there, and an element is there unless it was cut off. -/
structure Retains (cut : Nat → Prop) (b b' : Body) : Prop where
  shape_eq : b'.shape = b.shape
  properties : b.properties.entries <+: b'.properties.entries
  element : ∀ index slot, b.slotAt? (.element index) = some slot →
    b'.slotAt? (.element index) = some slot ∨ cut index

variable {b'' : Body} {cut cut' : Nat → Prop}

theorem retains_refl (cut : Nat → Prop) (b : Body) : b.Retains cut b :=
  ⟨rfl, List.prefix_refl _, fun _ _ h => .inl h⟩

theorem Retains.mono (h : b.Retains cut b') (hcut : ∀ index, cut index → cut' index) :
    b.Retains cut' b' :=
  ⟨h.shape_eq, h.properties, fun index slot hslot => (h.element index slot hslot).imp_right (hcut index)⟩

theorem Retains.trans (h : b.Retains cut b') (h' : b'.Retains cut b'') : b.Retains cut b'' where
  shape_eq := h'.shape_eq.trans h.shape_eq
  properties := h.properties.trans h'.properties
  element index slot hslot := by
    rcases h.element index slot hslot with hkept | hcut
    · exact h'.element index slot hkept
    · exact .inr hcut

theorem Gains.retains (h : b.Gains slot place b') (hnone : b.slotAt? place = none)
    (cut : Nat → Prop) : b.Retains cut b' := by
  cases h with
  | @element index e e' properties hget _ =>
    refine ⟨rfl, List.prefix_refl _, fun other slot' hslot => .inl ?_⟩
    have hne : other ≠ index := by
      rintro rfl
      rw [hnone] at hslot
      cases hslot
    exact ((hget other).trans (if_neg hne)).trans hslot
  | property hentries => exact ⟨rfl, ⟨_, hentries.symm⟩, fun _ _ hslot => .inl hslot⟩

/-- A change of the length cuts off elements from there on, which are gone then. -/
theorem retains_setLength (b : Body) (length : Nat) :
    b.Retains (fun index => length ≤ index ∧
      (b.mapElements (·.setLength length)).slotAt? (.element index) = none)
      (b.mapElements (·.setLength length)) := by
  obtain ⟨content, properties⟩ := b
  cases content with
  | array e =>
    refine ⟨rfl, List.prefix_refl _, fun index slot hslot => ?_⟩
    have hnow : Body.slotAt? (Body.mapElements (·.setLength length) ⟨.array e, properties⟩)
        (.element index) = if e.length ≤ length ∨ index < length then e.get? index else none :=
      e.get?_setLength length index
    rw [hnow]
    by_cases hkept : e.length ≤ length ∨ index < length
    · rw [if_pos hkept]
      exact .inl hslot
    · rw [if_neg hkept]
      exact .inr ⟨by omega, rfl⟩
  | object => exact ⟨rfl, List.prefix_refl _, fun _ _ hslot => .inl hslot⟩
  | function => exact ⟨rfl, List.prefix_refl _, fun _ _ hslot => .inl hslot⟩

theorem isSome_elements?_of_shape_eq (h : b'.shape = b.shape) :
    b'.elements?.isSome = b.elements?.isSome := by
  obtain ⟨content, _⟩ := b
  obtain ⟨content', _⟩ := b'
  cases content <;> cases content' <;> first | rfl | cases h

/-- A key that leads to a slot leads there still, unless an element was cut off. -/
theorem Retains.property_eq (h : b.Retains cut b') (hslot : b.property key = .aliased slot)
    (hcut : ∀ index, arrayIndex? key = some index → ¬ cut index) : b'.property key = .aliased slot := by
  apply property_of_slotAt?
  rw [place_congr (isSome_elements?_of_shape_eq h.shape_eq) key]
  have hslot := slotAt?_of_property hslot
  cases hplace : b.place key with
  | length => rw [hplace] at hslot; cases hslot
  | element index =>
    rw [hplace] at hslot
    exact (h.element index slot hslot).resolve_right (hcut index (arrayIndex?_of_place hplace))
  | property name =>
    rw [hplace] at hslot
    obtain ⟨more, hmore⟩ := h.properties
    have hslot : b.properties.entries.lookup name = some slot := hslot
    simp only [slotAt?, NameTable.get?, ← hmore, List.lookup_append, hslot, Option.some_or]

end Body

end SlotScript
