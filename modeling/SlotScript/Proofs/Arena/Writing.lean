import SlotScript.Proofs.Arena.Added
import SlotScript.Proofs.Arena.Closed
import SlotScript.Proofs.Double.Whole

/-!
# What a write does

A write to a primitive value is ignored, one to the length of an array changes its length, and any other
one puts the value into a place (`Arena.Sets`, `sets_of_setProperty`). There are three ways to do that
(`Arena.Written`): the place has a slot and the value in it is replaced; it has none and shares the slot of
the outcome; it has none and the outcome has none either, so that a slot is added. In each of them the
value is read under the key afterwards (`Written.getProperty_eq`, `Written.value_eq`).

Arrays whose elements lie below their length keep that (`Arena.Indexed`, `keepsIndexed`), and in these a
change of the length cuts off what is from there on.
-/

namespace SlotScript

/-- The number of the value is equal to the length, and an array can have that length. -/
def Value.DenotesLength (value : Value) (length : Nat) : Prop :=
  length ≤ maxArrayLength ∧ value.toNumber.numEq (.ofNat length)

theorem arrayLength_eq_ok_iff {value : Value} {length : Nat} :
    arrayLength value = .ok length ↔ value.DenotesLength length := by
  have hexact {n : Nat} (h : n ≤ maxArrayLength) :
      value.toNumber.numEq (.ofNat n) ↔ value.toNumber.toNat? = some n :=
    Double.numEq_ofNat_iff (Nat.le_trans h (by decide))
  unfold arrayLength
  constructor
  · intro h
    split at h
    · next n hn =>
      split at h
      · next hle =>
        cases h
        exact ⟨hle, (hexact hle).mpr hn⟩
      · cases h
    · cases h
  · rintro ⟨hle, hnum⟩
    rw [(hexact hle).mp hnum]
    exact if_pos hle

namespace Arena

variable {a a' : Arena} {id other : SlotId} {value : Value} {body : Body}

/-! ### Replacing a value or a body -/

/-- The arena with the value in a live slot replaced. -/
def withValue (a : Arena) (id : SlotId) (value : Value) : Arena :=
  a.modifySlot id ({ · with value })

/-- The arena with the body of a live slot replaced. -/
def withBody (a : Arena) (id : SlotId) (body : Body) : Arena :=
  a.modifySlot id ({ · with body := some body })

theorem modifySlot_congr {f g : Slot → Slot} (h : ∀ slot, a.get? id = some slot → f slot = g slot) :
    a.modifySlot id f = a.modifySlot id g := by
  have hslots : a.slots.modify id.index (·.map f) = a.slots.modify id.index (·.map g) := by
    apply Array.ext_getElem?
    intro i
    rw [Array.getElem?_modify, Array.getElem?_modify]
    split
    · next hi =>
      subst hi
      cases hentry : a.slots[id.index]? with
      | none => rfl
      | some entry =>
        cases entry with
        | none => rfl
        | some slot =>
          have hslot : a.get? id = some slot := by simp only [get?, hentry, Option.join_some]
          simp only [Option.map_some, h slot hslot]
    · rfl
  simp only [modifySlot, hslots]

theorem value_congr (h : (a'.get? id).map Slot.value = (a.get? id).map Slot.value) :
    a'.value id = a.value id := by
  simp only [Arena.value, Arena.get]
  cases hid : a.get? id with
  | none =>
    rw [hid, Option.map_none, Option.map_eq_none_iff] at h
    rw [h]
  | some slot =>
    rw [hid, Option.map_some] at h
    obtain ⟨slot', hslot', hvalue⟩ := Option.map_eq_some_iff.mp h
    rw [hslot']
    exact congrArg Except.ok hvalue

theorem body_congr (h : (a'.get? id).map Slot.body = (a.get? id).map Slot.body) :
    a'.body id = a.body id := by
  simp only [Arena.body, Arena.get]
  cases hid : a.get? id with
  | none =>
    rw [hid, Option.map_none, Option.map_eq_none_iff] at h
    rw [h]
  | some slot =>
    rw [hid, Option.map_some] at h
    obtain ⟨slot', hslot', hbody⟩ := Option.map_eq_some_iff.mp h
    rw [hslot']
    simp only [bind, Except.bind, hbody]

@[simp] theorem value_withBody (a : Arena) (id other : SlotId) (body : Body) :
    (a.withBody id body).value other = a.value other := by
  apply value_congr
  rw [withBody, get?_modifySlot]
  split <;> cases a.get? other <;> rfl

@[simp] theorem body_withValue (a : Arena) (id other : SlotId) (value : Value) :
    (a.withValue id value).body other = a.body other := by
  apply body_congr
  rw [withValue, get?_modifySlot]
  split <;> cases a.get? other <;> rfl

theorem body_withBody_self (h : a.isLive id) (body : Body) : (a.withBody id body).body id = .ok body := by
  obtain ⟨slot, hslot⟩ := get?_of_isLive h
  have hnew : (a.withBody id body).get? id = some { slot with body := some body } := by
    rw [withBody, get?_modifySlot, if_pos rfl, hslot, Option.map_some]
  exact body_eq_ok hnew rfl

theorem body_withBody_of_ne (h : other ≠ id) (body : Body) :
    (a.withBody id body).body other = a.body other := by
  apply body_congr
  rw [withBody, get?_modifySlot, if_neg h]

theorem value_withValue_self (h : a.isLive id) (value : Value) :
    (a.withValue id value).value id = .ok value := by
  obtain ⟨slot, hslot⟩ := get?_of_isLive h
  have hnew : (a.withValue id value).get? id = some { slot with value } := by
    rw [withValue, get?_modifySlot, if_pos rfl, hslot, Option.map_some]
  exact value_eq_ok hnew

variable {added : List (SlotId × Slot)}

theorem Added.body_eq (h : a.Added added a') (hid : a.isLive id) : a'.body id = a.body id :=
  body_congr (congrArg _ (h.get?_of_isLive hid))

theorem Added.value_eq (h : a.Added added a') (hid : a.isLive id) : a'.value id = a.value id :=
  value_congr (congrArg _ (h.get?_of_isLive hid))

/-! ### Arrays whose elements lie below their length -/

/-- The elements of all arrays are indexed. -/
def Indexed (a : Arena) : Prop :=
  ∀ id slot body, a.get? id = some slot → slot.body = some body → body.Indexed

theorem indexed_new (config : ArenaConfig) : (new config).Indexed := by
  intro id slot body hslot
  simp [new, get?] at hslot

theorem Indexed.of_body (h : a.Indexed) (hbody : a.body id = .ok body) : body.Indexed := by
  obtain ⟨slot, hslot, hbody⟩ := get?_of_body hbody
  exact h id slot body hslot hbody

theorem Indexed.allocated {slot : Slot} (h : a.Indexed) (hnew : a.Allocated id slot a')
    (hslot : ∀ body, slot.body = some body → body.Indexed) : a'.Indexed := by
  intro other slot' body hslot' hbody
  rw [hnew.get?_eq] at hslot'
  split at hslot'
  · cases hslot'
    exact hslot body hbody
  · exact h other slot' body hslot' hbody

theorem Indexed.modifySlot (h : a.Indexed) (id : SlotId) {f : Slot → Slot}
    (hf : ∀ slot body, (∀ old, slot.body = some old → old.Indexed) → (f slot).body = some body →
      body.Indexed) : (a.modifySlot id f).Indexed := by
  intro other slot body hslot hbody
  rw [get?_modifySlot] at hslot
  split at hslot
  · obtain ⟨old, hold, rfl⟩ := Option.map_eq_some_iff.mp hslot
    exact hf old body (fun b hb => h other old b hold hb) hbody
  · exact h other slot body hslot hbody

/-- Indexed arrays stay so. -/
def KeepsIndexed (a a' : Arena) : Prop := a.Accounted → a'.Accounted ∧ (a.Indexed → a'.Indexed)

instance : IsPreorder Arena KeepsIndexed where
  refl _ h := ⟨h, fun hindexed => hindexed⟩
  trans _ _ _ hab hbc h := by
    obtain ⟨hb, hindexed⟩ := hab h
    obtain ⟨hc, hindexed'⟩ := hbc hb
    exact ⟨hc, fun ha => hindexed' (hindexed ha)⟩

end Arena

namespace ArenaM

open Arena (KeepsIndexed)

theorem keepsIndexed_allocWith {content : SlotId → Slot}
    (h : ∀ id body, (content id).body = some body → body.Indexed) :
    Always KeepsIndexed (allocWith content) := by
  intro a
  by_cases ha : a.Accounted
  · refine (ha.ends_allocWith content).mono (fun id a' hnew _ => ?_) fun _ a' hfull _ => ?_
    · exact ⟨hnew.2.accounted, fun hindexed => hindexed.allocated hnew.2 (h id)⟩
    · rw [hfull.2.2]
      exact ⟨ha, fun hindexed => hindexed⟩
  · unfold Ends
    split <;> exact fun h' => absurd h' ha

theorem keepsIndexed_modifyBody (owner : SlotId) {f : Body → Body} (hshape : ∀ b, (f b).shape = b.shape)
    (hf : ∀ b : Body, b.Indexed → (f b).Indexed) : Always KeepsIndexed (modifyBody owner f) := by
  refine (always_read _).bind fun _ => always_modify fun a ha => ⟨?_, fun hindexed => ?_⟩
  · exact (ha.grown_modifySlot owner fun s => Body.map_shape_map hshape s.body).accounted
  · refine hindexed.modifySlot owner fun slot body hold hbody => ?_
    obtain ⟨old, hslot, rfl⟩ := Option.map_eq_some_iff.mp hbody
    exact hf old (hold old hslot)

theorem keepsIndexed_setValue (slot : SlotId) (value : Value) :
    Always KeepsIndexed (setValue slot value) := by
  refine (always_read _).bind fun _ => always_modify fun a ha => ⟨?_, fun hindexed => ?_⟩
  · exact (ha.grown_modifySlot slot (f := ({ · with value })) fun _ => rfl).accounted
  · exact hindexed.modifySlot slot fun _ body hold hbody => hold body hbody

/-- Building and writing keep the elements of arrays below the length. -/
theorem keepsIndexed : Writing (Always KeepsIndexed) where
  pure := always_pure
  bind := Always.bind
  read _ := always_read _
  alloc _ := keepsIndexed_allocWith fun _ _ hbody => by cases hbody
  allocBody body hbuilt := keepsIndexed_allocWith fun _ _ hbody => by cases hbody; exact hbuilt.indexed
  setValue := keepsIndexed_setValue
  cutElements owner length := keepsIndexed_modifyBody owner (Body.shape_mapElements _)
    fun _ hb => hb.mapElements fun _ he => he.setLength length
  putSlot owner slot _ hfits := keepsIndexed_modifyBody owner (Body.shape_putSlot _ _)
    fun _ hb => hb.putSlot hfits slot

end ArenaM

/-! ### What a write can do -/

namespace Arena

/-- The value of an outcome was put into a place of the body that `owner` owns, and is now in a slot. -/
inductive Written (a : Arena) (owner : SlotId) (body : Body) (place : Place) (outcome : Outcome)
    (value : Value) : SlotId → Arena → Prop where
  /-- The slot of the place gets the value. -/
  | replaced {slot} : body.slotAt? place = some slot → a.isLive slot →
      Written a owner body place outcome value slot (a.withValue slot value)
  /-- The place had no slot and shares that of the outcome. -/
  | shared {slot body'} : body.slotAt? place = none → outcome.slot? = some slot → a.isLive slot →
      body.Gains slot place body' →
      Written a owner body place outcome value slot (a.withBody owner body')
  /-- The place had no slot and gets a new one, as the outcome has none either. -/
  | added {slot a₁ body'} : body.slotAt? place = none → outcome = .fresh value →
      a.Added [(slot, { value })] a₁ → body.Gains slot place body' →
      Written a owner body place outcome value slot (a₁.withBody owner body')

/-- What a write that succeeds can do. -/
inductive Sets (a : Arena) (base : Value) (key : String) (outcome : Outcome) : Arena → Prop where
  | ignored : base.handle? = none → Sets a base key outcome a
  /-- The length of the array changes. -/
  | length {owner body value length} : base.handle? = some owner → a.body owner = .ok body →
      body.place key = .length → a.resolve outcome = .ok value → value.DenotesLength length →
      Sets a base key outcome (a.withBody owner (body.mapElements (·.setLength length)))
  /-- The value goes to the place. -/
  | place {owner body value slot a'} : base.handle? = some owner → a.body owner = .ok body →
      body.place key ≠ .length → a.resolve outcome = .ok value →
      a.Written owner body (body.place key) outcome value slot a' → Sets a base key outcome a'

theorem resolve_eq_value {outcome : Outcome} {slot : SlotId} (h : outcome.slot? = some slot) (a : Arena) :
    a.resolve outcome = a.value slot := by
  cases outcome with
  | fresh value => cases h
  | aliased id => cases h; rfl
  | minted id => cases h; rfl

end Arena

namespace ArenaM

variable {a a' : Arena} {owner : SlotId} {body : Body} {outcome : Outcome}

theorem eq_of_setValue {slot : SlotId} {value : Value} (h : setValue slot value a = .ok () a') :
    a.isLive slot ∧ a' = a.withValue slot value := by
  obtain ⟨s, hs, ⟨⟩⟩ := read_bind_eq_ok_iff.mp h
  exact ⟨Arena.isLive_of_get? (Arena.get?_of_get hs), rfl⟩

theorem modifyBody_eq_ok (hbody : a.body owner = .ok body) (f : Body → Body) :
    modifyBody owner f a = .ok () (a.withBody owner (f body)) := by
  have hsame : a.modifySlot owner (fun s => { s with body := s.body.map f }) =
      a.withBody owner (f body) := by
    apply Arena.modifySlot_congr
    intro slot hslot
    obtain ⟨slot', hslot', hbody'⟩ := Arena.get?_of_body hbody
    obtain rfl := Option.some.inj (hslot.symm.trans hslot')
    rw [hbody', Option.map_some]
  rw [← hsame]
  exact bind_eq_of_ok (read_eq_ok hbody)

/-- A write to a place that a key addresses puts the value of the outcome there. -/
theorem written_of_setPlace (h : a.Accounted) {key : String} (hbody : a.body owner = .ok body)
    (hplace : body.place key ≠ .length) (hact : setPlace owner (body.place key) outcome a = .ok () a') :
    ∃ value slot, a.resolve outcome = .ok value ∧
      a.Written owner body (body.place key) outcome value slot a' := by
  obtain ⟨_, hread, hput⟩ := read_bind_eq_ok_iff.mp hact
  cases hread.symm.trans hbody
  cases hslot : body.slotAt? (body.place key) with
  | some slot =>
    rw [hslot] at hput
    obtain ⟨value, hvalue, hset⟩ := read_bind_eq_ok_iff.mp hput
    obtain ⟨hlive, rfl⟩ := eq_of_setValue hset
    exact ⟨value, slot, hvalue, .replaced hslot hlive⟩
  | none =>
    rw [hslot] at hput
    obtain ⟨⟨slot, unshared⟩, a₁, hmember, hmodify⟩ := bind_eq_ok_iff.mp hput
    have hmodify : modifyBody owner (·.putSlot (body.place key) slot) a₁ = .ok () a' := hmodify
    have hgains := Body.gains_putSlot hplace hslot slot
    rcases memberSlot_cases h hmember with ⟨hoh, hlive, rfl⟩ | ⟨value, rfl, hadded⟩
    · obtain ⟨s, hs⟩ := Arena.get?_of_isLive hlive
      rw [modifyBody_eq_ok hbody] at hmodify
      cases hmodify
      exact ⟨s.value, slot, (Arena.resolve_eq_value hoh a₁).trans (Arena.value_eq_ok hs),
        .shared hslot hoh hlive hgains⟩
    · have hbody₁ := (hadded.body_eq (Arena.isLive_of_body hbody)).trans hbody
      rw [modifyBody_eq_ok hbody₁] at hmodify
      cases hmodify
      exact ⟨value, slot, rfl, .added hslot rfl hadded hgains⟩

theorem sets_of_setProperty (h : a.Accounted) {base : Value} {key : String}
    (hact : setProperty base key outcome a = .ok () a') : a.Sets base key outcome a' := by
  unfold setProperty at hact
  cases howner : base.handle? with
  | none =>
    rw [howner] at hact
    cases hact
    exact .ignored howner
  | some owner =>
    rw [howner] at hact
    obtain ⟨body, hbody, hwrite⟩ := read_bind_eq_ok_iff.mp hact
    have hput (hplace : body.place key ≠ .length)
        (hwrite : setPlace owner (body.place key) outcome a = .ok () a') : a.Sets base key outcome a' := by
      obtain ⟨value, slot, hvalue, hwritten⟩ := written_of_setPlace h hbody hplace hwrite
      exact .place howner hbody hplace hvalue hwritten
    cases hplace : body.place key with
    | length =>
      rw [hplace] at hwrite
      obtain ⟨value, hvalue, hlength⟩ := read_bind_eq_ok_iff.mp hwrite
      obtain ⟨length, hdenotes, hmodify⟩ := read_bind_eq_ok_iff.mp hlength
      rw [modifyBody_eq_ok hbody] at hmodify
      cases hmodify
      exact .length howner hbody hplace hvalue (arrayLength_eq_ok_iff.mp hdenotes)
    | element index =>
      rw [hplace] at hwrite
      exact hput (by simp [hplace]) (hplace ▸ hwrite)
    | property name =>
      rw [hplace] at hwrite
      exact hput (by simp [hplace]) (hplace ▸ hwrite)

/-- The length of an array can be set to what denotes one. -/
theorem setProperty_length_eq_ok {base value : Value} {length : Nat} (howner : base.handle? = some owner)
    (hbody : a.body owner = .ok body) (harray : body.elements?.isSome)
    (hvalue : a.resolve outcome = .ok value) (hlength : value.DenotesLength length) :
    setProperty base lengthKey outcome a =
      .ok () (a.withBody owner (body.mapElements (·.setLength length))) := by
  have hplace : body.place lengthKey = .length := Body.place_eq_length_iff.mpr ⟨harray, rfl⟩
  have hset : setLength owner outcome a =
      .ok () (a.withBody owner (body.mapElements (·.setLength length))) := by
    apply (bind_eq_of_ok (read_eq_ok hvalue)).trans
    apply (bind_eq_of_ok (read_eq_ok (arrayLength_eq_ok_iff.mpr hlength))).trans
    exact modifyBody_eq_ok hbody _
  unfold setProperty
  rw [howner]
  apply (bind_eq_of_ok (read_eq_ok hbody)).trans
  rw [hplace]
  exact hset

end ArenaM

/-! ### Reading after a write -/

namespace Arena

variable {a a' : Arena} {base value : Value} {key : String} {outcome : Outcome} {owner slot : SlotId}
  {body : Body}

theorem getProperty_of_body (howner : base.handle? = some owner) (hbody : a.body owner = .ok body)
    (key : String) : a.getProperty base key = .ok (body.property key) := by
  simp only [Arena.getProperty, howner, hbody]
  rfl

/-- The slot is found under the key. -/
theorem Written.getProperty_eq (h : a.Written owner body (body.place key) outcome value slot a')
    (howner : base.handle? = some owner) (hbody : a.body owner = .ok body) :
    a'.getProperty base key = .ok (.aliased slot) := by
  have hlive := isLive_of_body hbody
  cases h with
  | replaced hslot _ =>
    rw [getProperty_of_body howner ((body_withValue a slot owner value).trans hbody),
      Body.property_of_slotAt? hslot]
  | shared hnone _ _ hgains =>
    rw [getProperty_of_body howner (body_withBody_self hlive _), hgains.property_eq hnone]
  | added hnone _ hadded hgains =>
    rw [getProperty_of_body howner (body_withBody_self (hadded.isLive hlive) _),
      hgains.property_eq hnone]

/-- The slot has the value. -/
theorem Written.value_eq {place : Place} (h : a.Written owner body place outcome value slot a')
    (hvalue : a.resolve outcome = .ok value) : a'.value slot = .ok value := by
  cases h with
  | replaced _ hlive => exact value_withValue_self hlive value
  | shared _ hslot _ _ =>
    rw [value_withBody, ← resolve_eq_value hslot]
    exact hvalue
  | added _ _ hadded _ =>
    rw [value_withBody]
    exact value_eq_ok (hadded.get?_added _ List.mem_cons_self)

/-- A write that is not to the length of an array puts the value into the place. -/
theorem Sets.written {key : String} (h : a.Sets base key outcome a')
    (howner : base.handle? = some owner) :
    ∃ body, a.body owner = .ok body ∧ (body.elements? = none ∨ key ≠ lengthKey →
      ∃ value slot, a.resolve outcome = .ok value ∧
        a.Written owner body (body.place key) outcome value slot a') := by
  cases h with
  | ignored hnone =>
    rw [howner] at hnone
    cases hnone
  | length howner' hbody hplace _ _ =>
    obtain rfl := Option.some.inj (howner.symm.trans howner')
    obtain ⟨harray, hkey⟩ := Body.place_eq_length_iff.mp hplace
    refine ⟨_, hbody, fun hother => ?_⟩
    rcases hother with hnone | hne
    · rw [hnone] at harray
      cases harray
    · exact absurd hkey hne
  | place howner' hbody _ hvalue hwritten =>
    obtain rfl := Option.some.inj (howner.symm.trans howner')
    exact ⟨_, hbody, fun _ => ⟨_, _, hvalue, hwritten⟩⟩

/-- What a change of the length comes to. -/
theorem Sets.resized (h : a.Sets base lengthKey outcome a') (hindexed : a.Indexed)
    (howner : base.handle? = some owner) (hbody : a.body owner = .ok body)
    (harray : body.elements?.isSome) :
    ∃ value length body', a.resolve outcome = .ok value ∧ value.DenotesLength length ∧
      body.Resizes length body' ∧ a' = a.withBody owner body' := by
  cases h with
  | ignored hnone =>
    rw [howner] at hnone
    cases hnone
  | length howner' hbody' _ hvalue hlength =>
    obtain rfl := Option.some.inj (howner.symm.trans howner')
    cases hbody.symm.trans hbody'
    obtain ⟨e, he⟩ := Option.isSome_iff_exists.mp harray
    exact ⟨_, _, _, hvalue, hlength, Body.resizes_setLength (hindexed.of_body hbody) he _, rfl⟩
  | place howner' hbody' hplace _ _ =>
    obtain rfl := Option.some.inj (howner.symm.trans howner')
    cases hbody.symm.trans hbody'
    exact absurd (Body.place_eq_length_iff.mpr ⟨harray, rfl⟩) hplace

/-- **What is written is read**, and nothing else has changed. A write to a container puts the value into
the slot that the key has, or makes the body gain an entry with the slot of the outcome, or with a new
slot. Only the length of an array is different: it can be set to what denotes a length, and the elements
from there on are gone then. -/
theorem write_then_read (config : ArenaConfig) (calls : List ArenaCall) :
    let a := (new config).run calls
    a.Indexed →
      (∀ container, (a.after (.build container)).Indexed) ∧
      (∀ base key outcome, (a.after (.setProperty base key outcome)).Indexed) ∧
      ∀ base owner outcome, base.handle? = some owner →
        (∀ key a', ArenaM.setProperty base key outcome a = .ok () a' →
          ∃ body, a.body owner = .ok body ∧ (body.elements? = none ∨ key ≠ lengthKey →
            ∃ value slot, a.resolve outcome = .ok value ∧
              a.Written owner body (body.place key) outcome value slot a' ∧
              a'.getProperty base key = .ok (.aliased slot) ∧ a'.value slot = .ok value)) ∧
        ∀ body, a.body owner = .ok body → body.elements?.isSome →
          ((∃ a', ArenaM.setProperty base lengthKey outcome a = .ok () a') ↔
            ∃ value length, a.resolve outcome = .ok value ∧ value.DenotesLength length) ∧
          ∀ a', ArenaM.setProperty base lengthKey outcome a = .ok () a' →
            ∃ value length body', a.resolve outcome = .ok value ∧ value.DenotesLength length ∧
              body.Resizes length body' ∧ a' = a.withBody owner body' ∧
              a'.getProperty base lengthKey = .ok (.fresh (.number (.ofNat length))) := by
  intro a hindexed
  have ha : a.Accounted := (accounted_new config).accounted_run calls
  refine ⟨fun container => ?_, fun base key outcome => ?_, fun base owner outcome howner => ⟨?_, ?_⟩⟩
  · exact ((ArenaM.keepsIndexed.build container).stateAfter a ha).2 hindexed
  · exact ((ArenaM.keepsIndexed.setProperty base key outcome).stateAfter a ha).2 hindexed
  · intro key a' hact
    obtain ⟨body, hbody, hput⟩ := (ArenaM.sets_of_setProperty ha hact).written howner
    refine ⟨body, hbody, fun hother => ?_⟩
    obtain ⟨value, slot, hvalue, hwritten⟩ := hput hother
    exact ⟨value, slot, hvalue, hwritten, hwritten.getProperty_eq howner hbody,
      hwritten.value_eq hvalue⟩
  · intro body hbody harray
    have hresized (a' : Arena) (hact : ArenaM.setProperty base lengthKey outcome a = .ok () a') :=
      (ArenaM.sets_of_setProperty ha hact).resized hindexed howner hbody harray
    refine ⟨⟨?_, ?_⟩, fun a' hact => ?_⟩
    · rintro ⟨a', hact⟩
      obtain ⟨value, length, -, hvalue, hlength, -⟩ := hresized a' hact
      exact ⟨value, length, hvalue, hlength⟩
    · rintro ⟨value, length, hvalue, hlength⟩
      exact ⟨_, ArenaM.setProperty_length_eq_ok howner hbody harray hvalue hlength⟩
    · obtain ⟨value, length, body', hvalue, hlength, hresizes, rfl⟩ := hresized a' hact
      refine ⟨value, length, body', hvalue, hlength, hresizes, rfl, ?_⟩
      rw [getProperty_of_body howner (body_withBody_self (isLive_of_body hbody) body'),
        hresizes.property_eq]

/-- An element is put far behind the end of an array with one element, which it shares; and the array is
emptied by setting its length to `false`. -/
theorem write_then_read_hole :
    let a := (new {}).run [.build (.array [.fresh .null])]
    let base : Value := .compound .array ⟨1⟩
    let body : Body := { content := .array { cells := [(0, ⟨0⟩)], length := 1 } }
    let written := stateAfter (ArenaM.setProperty base "7" (.aliased ⟨0⟩)) a
    let emptied := a.withBody ⟨1⟩ (body.mapElements (·.setLength 0))
    (a.Indexed ∧ base.handle? = some ⟨1⟩ ∧ a.body ⟨1⟩ = .ok body ∧ "7" ≠ lengthKey) ∧
      (ArenaM.setProperty base "7" (.aliased ⟨0⟩) a = .ok () written ∧
        ∃ value slot, a.resolve (.aliased ⟨0⟩) = .ok value ∧
          a.Written ⟨1⟩ body (body.place "7") (.aliased ⟨0⟩) value slot written ∧
          written.getProperty base "7" = .ok (.aliased slot) ∧ written.value slot = .ok value) ∧
      ArenaM.setProperty base lengthKey (.fresh (.boolean false)) a = .ok () emptied ∧
        ∃ value length body', a.resolve (.fresh (.boolean false)) = .ok value ∧
          value.DenotesLength length ∧ body.Resizes length body' ∧ emptied = a.withBody ⟨1⟩ body' ∧
          emptied.getProperty base lengthKey = .ok (.fresh (.number (.ofNat length))) := by
  intro a base body written emptied
  have hindexed : a.Indexed :=
    ((ArenaM.keepsIndexed.build (.array [.fresh .null])).stateAfter (new {}) (accounted_new {})).2
      (indexed_new {})
  have hbody : a.body ⟨1⟩ = .ok body := by rfl
  have hkey : "7" ≠ lengthKey := by decide
  have hdenotes : (Value.boolean false).DenotesLength 0 := ⟨by decide, by decide +kernel⟩
  have hwritten : ArenaM.setProperty base "7" (.aliased ⟨0⟩) a = .ok () written := by rfl
  have hemptied : ArenaM.setProperty base lengthKey (.fresh (.boolean false)) a = .ok () emptied :=
    ArenaM.setProperty_length_eq_ok rfl hbody rfl rfl hdenotes
  obtain ⟨-, -, hwrite⟩ := write_then_read {} [.build (.array [.fresh .null])] hindexed
  have hplace := (hwrite base ⟨1⟩ (.aliased ⟨0⟩) rfl).1
  have hlength := (hwrite base ⟨1⟩ (.fresh (.boolean false)) rfl).2
  obtain ⟨body', hbody', hread⟩ := hplace "7" written hwritten
  cases hbody.symm.trans hbody'
  exact ⟨⟨hindexed, rfl, hbody, hkey⟩, ⟨hwritten, hread (.inr hkey)⟩, hemptied,
    (hlength body hbody rfl).2 emptied hemptied⟩

end Arena

end SlotScript
