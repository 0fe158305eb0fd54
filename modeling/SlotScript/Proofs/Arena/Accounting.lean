import SlotScript.Proofs.Arena.Run
import SlotScript.Proofs.Arena.Stepwise
import Mathlib.Data.List.Nodup
import Mathlib.Data.List.Perm.Basic
import Mathlib.Order.Bounds.Basic

/-!
# Accounting

The table of slots, the free ids and the counters of an arena stay in step: `Arena.Accounted`.

* An allocation either fails because the capacity is used up, or gives an id that was not live and
  touches no other slot (`Accounted.ends_allocWith`).
* Every operation but a collection only allocates, as far as the numbers go (`Arena.Grown`); a
  collection moves what it frees from one number to the other (`Accounted.sweep`).
* `run_accounted` puts this together for runs. The size of the table is the largest number of slots
  that were live at once, so it stays within the capacity.
-/

namespace SlotScript

namespace Arena

/-- The table, the free ids and the number of live slots are in step. -/
structure Accounted (a : Arena) : Prop where
  free_nodup : a.free.Nodup
  mem_free_iff : ∀ id, id ∈ a.free ↔ a.slots[id.index]? = some none
  live_add_free : a.live + a.free.length = a.slots.size
  live_le : a.live ≤ a.config.capacity.toNat

theorem isLive_iff {a : Arena} {id : SlotId} :
    a.isLive id ↔ ∃ slot, a.slots[id.index]? = some (some slot) := by
  simp only [isLive, get?, Option.isSome_iff_exists, Option.join_eq_some_iff]

theorem isLive_of_get? {a : Arena} {id : SlotId} {slot : Slot} (h : a.get? id = some slot) :
    a.isLive id := by
  rw [isLive, h]; rfl

theorem get?_of_isLive {a : Arena} {id : SlotId} (h : a.isLive id) :
    ∃ slot, a.get? id = some slot := Option.isSome_iff_exists.mp h

/-- An id that the table has is live or free. -/
theorem Accounted.mem_free_iff_not_isLive {a : Arena} (h : a.Accounted) {id : SlotId}
    (hid : id.index < a.slots.size) : id ∈ a.free ↔ ¬ a.isLive id := by
  rw [h.mem_free_iff, isLive_iff, Array.getElem?_eq_getElem hid]
  cases a.slots[id.index] <;> simp

theorem Accounted.lt_size {a : Arena} (h : a.Accounted) {id : SlotId} (hid : id ∈ a.free) :
    id.index < a.slots.size :=
  (Array.getElem?_eq_some_iff.mp ((h.mem_free_iff id).mp hid)).1

theorem accounted_new (config : ArenaConfig) : (new config).Accounted where
  free_nodup := List.nodup_nil
  mem_free_iff := by simp [new]
  live_add_free := rfl
  live_le := Nat.zero_le _

/-! ### The number of live slots -/

theorem nodup_slotIds (n : Nat) : ((List.range n).map SlotId.mk).Nodup :=
  List.nodup_range.map fun _ _ h => SlotId.mk.inj h

theorem mem_slotIds {n : Nat} {id : SlotId} :
    id ∈ (List.range n).map SlotId.mk ↔ id.index < n := by
  simp only [List.mem_map, List.mem_range]
  constructor
  · rintro ⟨_, hi, rfl⟩
    exact hi
  · intro hi
    exact ⟨id.index, hi, rfl⟩

theorem nodup_liveSlots (a : Arena) : a.liveSlots.Nodup := (nodup_slotIds _).filter _

/-- The ids that the table has are split into the live ones and the free ones. -/
theorem Accounted.length_liveSlots {a : Arena} (h : a.Accounted) : a.liveSlots.length = a.live := by
  have hdead : (((List.range a.slots.size).map SlotId.mk).filter (!a.isLive ·)).Perm a.free := by
    apply (List.perm_ext_iff_of_nodup ((nodup_slotIds _).filter _) h.free_nodup).mpr
    intro id
    rw [List.mem_filter, mem_slotIds]
    constructor
    · rintro ⟨hid, hdead⟩
      exact (h.mem_free_iff_not_isLive hid).mpr (by simpa using hdead)
    · intro hfree
      have hid := h.lt_size hfree
      exact ⟨hid, by simpa using (h.mem_free_iff_not_isLive hid).mp hfree⟩
  have hsplit := List.length_eq_length_filter_add (l := (List.range a.slots.size).map SlotId.mk)
    a.isLive
  have hsize := h.live_add_free
  rw [hdead.length_eq, List.length_map, List.length_range] at hsplit
  unfold liveSlots
  omega

/-- The live slots are the occupied entries of the table. -/
theorem length_liveSlots_eq_countP (a : Arena) :
    a.liveSlots.length = a.slots.countP (·.isSome) := by
  have htable : a.slots.toList = (List.range a.slots.size).map (a.slots[·]?.join) := by
    apply List.ext_getElem (by simp)
    intro i hi _
    simp only [List.getElem_map, List.getElem_range, Array.getElem_toList]
    rw [Array.getElem?_eq_getElem (by simpa using hi), Option.join_some]
  rw [← Array.countP_toList, htable, List.countP_map, liveSlots, ← List.countP_eq_length_filter,
    List.countP_map]
  rfl

theorem Accounted.live_eq_countP {a : Arena} (h : a.Accounted) :
    a.live = a.slots.countP (·.isSome) := by
  rw [← length_liveSlots_eq_countP, h.length_liveSlots]

/-! ### Allocation -/

/-- `a'` is `a` with the new slot `id`, which holds `slot`. -/
structure Allocated (a : Arena) (id : SlotId) (slot : Slot) (a' : Arena) : Prop where
  accounted : a'.Accounted
  get?_new : a.get? id = none
  get?_eq : ∀ other, a'.get? other = if other = id then some slot else a.get? other
  config_eq : a'.config = a.config
  live_eq : a'.live = a.live + 1
  total_eq : a'.total = a.total + 1
  size_eq : a'.slots.size = max a.slots.size a'.live

theorem Allocated.not_isLive {a a' : Arena} {id : SlotId} {slot : Slot}
    (h : a.Allocated id slot a') : ¬ a.isLive id := by
  rw [isLive, h.get?_new]
  exact Bool.false_ne_true

/-- The slots that were live stay as they are. -/
theorem Allocated.get?_of_isLive {a a' : Arena} {id other : SlotId} {slot : Slot}
    (h : a.Allocated id slot a') (hother : a.isLive other) : a'.get? other = a.get? other := by
  rw [h.get?_eq, if_neg]
  rintro rfl
  exact h.not_isLive hother

/-- Reusing the id that was freed last. -/
theorem Accounted.allocated_reuse {a : Arena} (h : a.Accounted) {id : SlotId} {free : List SlotId}
    (hfree : a.free = id :: free) (hlive : a.live < a.config.capacity.toNat) (slot : Slot) :
    a.Allocated id slot
      { a with slots := a.slots.setIfInBounds id.index (some slot), free, live := a.live + 1,
               total := a.total + 1 } := by
  have hmem : id ∈ a.free := by rw [hfree]; exact List.mem_cons_self
  have hnodup := h.free_nodup
  have hsize := h.live_add_free
  rw [hfree, List.nodup_cons] at hnodup
  rw [hfree, List.length_cons] at hsize
  have hentry (other : SlotId) : (a.slots.setIfInBounds id.index (some slot))[other.index]? =
      if other = id then some (some slot) else a.slots[other.index]? := by
    obtain ⟨i⟩ := id
    obtain ⟨j⟩ := other
    rw [Array.getElem?_setIfInBounds]
    by_cases hij : i = j
    · subst hij; simp [show i < a.slots.size from h.lt_size hmem]
    · simp [hij, Ne.symm hij]
  refine ⟨⟨hnodup.2, fun other => ?_, ?_, hlive⟩, ?_, fun other => ?_, rfl, rfl, rfl, ?_⟩
  · rw [hentry]
    have hother := h.mem_free_iff other
    rw [hfree, List.mem_cons] at hother
    split
    · next heq => subst heq; simp [hnodup.1]
    · next hne => rw [← hother]; simp [hne]
  · simp only [Array.size_setIfInBounds]; omega
  · simp only [get?, (h.mem_free_iff id).mp hmem, Option.join_some]
  · simp only [get?, hentry]; split <;> rfl
  · simp only [Array.size_setIfInBounds]; omega

/-- Using the next id that the table does not have yet. -/
theorem Accounted.allocated_push {a : Arena} (h : a.Accounted) (hfree : a.free = [])
    (hlive : a.live < a.config.capacity.toNat) (slot : Slot) :
    a.Allocated ⟨a.slots.size⟩ slot
      { a with slots := a.slots.push (some slot), live := a.live + 1, total := a.total + 1 } := by
  have hsize := h.live_add_free
  rw [hfree, List.length_nil] at hsize
  have hentry (other : SlotId) : (a.slots.push (some slot))[other.index]? =
      if other = ⟨a.slots.size⟩ then some (some slot) else a.slots[other.index]? := by
    obtain ⟨j⟩ := other
    rw [Array.getElem?_push]
    by_cases hj : j = a.slots.size <;> simp [hj]
  refine ⟨⟨h.free_nodup, fun other => ?_, ?_, hlive⟩, ?_, fun other => ?_, rfl, rfl, rfl, ?_⟩
  · show other ∈ a.free ↔ _
    rw [hentry]
    split
    · simp [hfree]
    · exact h.mem_free_iff other
  · simp only [Array.size_push, hfree, List.length_nil]; omega
  · simp [get?]
  · simp only [get?, hentry]; split <;> rfl
  · simp only [Array.size_push]; omega

/-- **What an allocation does.** It fails exactly when the capacity is used up, and changes nothing
then. -/
theorem Accounted.ends_allocWith {a : Arena} (h : a.Accounted) (content : SlotId → Slot) :
    Ends (ArenaM.allocWith content) a
      (fun id a' => a.live < a.config.capacity.toNat ∧ a.Allocated id (content id) a')
      (fun e a' => a.config.capacity.toNat ≤ a.live ∧ e = .exhausted a.config.capacity ∧
        a' = a) := by
  by_cases hfull : a.config.capacity.toNat ≤ a.live
  · exact (ends_error (by simp only [ArenaM.allocWith, if_pos hfull])).mpr ⟨hfull, rfl, rfl⟩
  have hlive : a.live < a.config.capacity.toNat := by omega
  cases hfree : a.free with
  | cons id free =>
    exact (ends_ok (by simp only [ArenaM.allocWith, if_neg hfull, hfree])).mpr
      ⟨hlive, h.allocated_reuse hfree hlive _⟩
  | nil =>
    -- No id is free, so the table is as large as the number of live slots.
    have hsize := h.live_add_free
    rw [hfree, List.length_nil] at hsize
    have hindex : a.slots.size < UInt32.size := by
      have := a.config.capacity.toNat_lt_size
      omega
    have hact : ArenaM.allocWith content a = .ok ⟨a.slots.size⟩
        { a with slots := a.slots.push (some (content ⟨a.slots.size⟩)), live := a.live + 1,
                 total := a.total + 1 } := by
      simp only [ArenaM.allocWith, if_neg hfull, hfree, if_pos hindex]
    exact (ends_ok hact).mpr ⟨hlive, h.allocated_push hfree hlive _⟩

theorem Accounted.allocWith_cases {a : Arena} (h : a.Accounted) (content : SlotId → Slot) :
    if a.config.capacity.toNat ≤ a.live then
      ArenaM.allocWith content a = .error (.exhausted a.config.capacity) a
    else
      ∃ id a', ArenaM.allocWith content a = .ok id a' ∧ ¬ a.isLive id ∧
        a'.get? id = some (content id) ∧ ∀ other, other ≠ id → a'.get? other = a.get? other := by
  have hends := h.ends_allocWith content
  cases hact : ArenaM.allocWith content a with
  | ok id a' =>
    obtain ⟨hlive, hnew⟩ := (ends_ok hact).mp hends
    rw [if_neg (by omega)]
    refine ⟨id, a', rfl, ?_, ?_, ?_⟩
    · exact hnew.not_isLive
    · rw [hnew.get?_eq, if_pos rfl]
    · intro other hne
      rw [hnew.get?_eq, if_neg hne]
  | error e a' =>
    obtain ⟨hfull, rfl, rfl⟩ := (ends_error hact).mp hends
    rw [if_pos hfull]

/-! ### Operations other than collections -/

/-- What operations other than collections do to an arena: slots are only added, a live slot stays
live and keeps the shape of its body, and the counters move together. -/
structure Grown (a a' : Arena) : Prop where
  accounted : a'.Accounted
  config_eq : a'.config = a.config
  live_le : a.live ≤ a'.live
  size_eq : a'.slots.size = max a.slots.size a'.live
  total_eq : a'.total + a.live = a.total + a'.live
  shape_eq : ∀ {id slot}, a.get? id = some slot →
    ∃ slot', a'.get? id = some slot' ∧ slot'.body.map Body.shape = slot.body.map Body.shape

theorem Accounted.grown_refl {a : Arena} (h : a.Accounted) : a.Grown a where
  accounted := h
  config_eq := rfl
  live_le := Nat.le_refl _
  size_eq := by have := h.live_add_free; omega
  total_eq := rfl
  shape_eq hslot := ⟨_, hslot, rfl⟩

theorem Grown.trans {a b c : Arena} (hab : a.Grown b) (hbc : b.Grown c) : a.Grown c where
  accounted := hbc.accounted
  config_eq := hbc.config_eq.trans hab.config_eq
  live_le := Nat.le_trans hab.live_le hbc.live_le
  size_eq := by
    have h1 := hab.size_eq
    have h2 := hbc.size_eq
    have h3 := hbc.live_le
    omega
  total_eq := by
    have h1 := hab.total_eq
    have h2 := hbc.total_eq
    omega
  shape_eq hslot := by
    obtain ⟨slot', hslot', hshape⟩ := hab.shape_eq hslot
    obtain ⟨slot'', hslot'', hshape'⟩ := hbc.shape_eq hslot'
    exact ⟨slot'', hslot'', hshape'.trans hshape⟩

theorem Grown.isLive {a a' : Arena} (h : a.Grown a') {id : SlotId} (hid : a.isLive id) :
    a'.isLive id := by
  obtain ⟨slot, hslot⟩ := Option.isSome_iff_exists.mp hid
  obtain ⟨slot', hslot', -⟩ := h.shape_eq hslot
  exact Option.isSome_iff_exists.mpr ⟨slot', hslot'⟩

theorem Allocated.grown {a a' : Arena} {id : SlotId} {slot : Slot}
    (h : a.Allocated id slot a') : a.Grown a' where
  accounted := h.accounted
  config_eq := h.config_eq
  live_le := by rw [h.live_eq]; omega
  size_eq := h.size_eq
  total_eq := by rw [h.live_eq, h.total_eq]; omega
  shape_eq hslot := ⟨_, (h.get?_of_isLive (isLive_of_get? hslot)).trans hslot, rfl⟩

/-- Changing what a live slot holds, but not the shape of its body. -/
theorem Accounted.grown_modifySlot {a : Arena} (h : a.Accounted) (id : SlotId) {f : Slot → Slot}
    (hf : ∀ s, (f s).body.map Body.shape = s.body.map Body.shape) :
    a.Grown (a.modifySlot id f) := by
  have hentry (other : SlotId) : (a.slots.modify id.index (·.map f))[other.index]? = some none ↔
      a.slots[other.index]? = some none := by
    rw [Array.getElem?_modify]
    split
    · rcases a.slots[other.index]? with _ | _ | _ <;> simp
    · rfl
  have hsize := h.live_add_free
  refine ⟨⟨h.free_nodup, fun other => ?_, ?_, h.live_le⟩, rfl, Nat.le_refl _, ?_, rfl, ?_⟩
  · exact (h.mem_free_iff other).trans (hentry other).symm
  · simpa only [modifySlot, Array.size_modify] using hsize
  · simp only [modifySlot, Array.size_modify]; omega
  · intro other slot hslot
    rw [get?_modifySlot, hslot]
    split
    · exact ⟨_, rfl, hf slot⟩
    · exact ⟨_, rfl, rfl⟩

/-- `Grown` from an arena whose numbers are in step. -/
def Grows (a a' : Arena) : Prop := a.Accounted → a.Grown a'

instance : IsPreorder Arena Grows where
  refl _ h := h.grown_refl
  trans _ _ _ hab hbc h := (hab h).trans (hbc (hab h).accounted)

end Arena

/-! ### One lemma for each step -/

theorem Body.shape_mapElements (f : Elements → Elements) (b : Body) :
    (b.mapElements f).shape = b.shape := by
  obtain ⟨content, _⟩ := b
  cases content <;> rfl

theorem Body.shape_putSlot (place : Place) (slot : SlotId) (b : Body) :
    (b.putSlot place slot).shape = b.shape := by
  cases place with
  | element index => exact b.shape_mapElements _
  | length => rfl
  | property name => rfl

theorem Body.map_shape_map {f : Body → Body} (hf : ∀ b, (f b).shape = b.shape) (body : Option Body) :
    (body.map f).map Body.shape = body.map Body.shape := by
  cases body with
  | none => rfl
  | some b => exact congrArg some (hf b)

namespace ArenaM

open Arena (Grows)

theorem grows_allocWith (content : SlotId → Slot) : Always Grows (allocWith content) := by
  intro a
  by_cases h : a.Accounted
  · refine (h.ends_allocWith content).mono (fun _ a' ha' _ => ha'.2.grown) (fun _ a' ha' _ => ?_)
    rw [ha'.2.2]
    exact h.grown_refl
  · unfold Ends
    split <;> exact fun h' => absurd h' h

theorem grows_modifySlot (slot : SlotId) {f : Slot → Slot}
    (hf : ∀ s, (f s).body.map Body.shape = s.body.map Body.shape) :
    Always Grows (modify (·.modifySlot slot f) : ArenaM PUnit) :=
  always_modify fun _ h => h.grown_modifySlot slot hf

theorem grows_setValue (slot : SlotId) (value : Value) : Always Grows (setValue slot value) :=
  (always_read _).bind fun _ => grows_modifySlot slot fun _ => rfl

theorem grows_modifyBody (slot : SlotId) {f : Body → Body} (hf : ∀ b, (f b).shape = b.shape) :
    Always Grows (modifyBody slot f) :=
  (always_read _).bind fun _ => grows_modifySlot slot fun s => Body.map_shape_map hf s.body

/-- Operations other than collections only allocate, as far as the numbers go. -/
theorem grows : Writing (Always Grows) where
  pure := always_pure
  bind := Always.bind
  read _ := always_read _
  alloc _ := grows_allocWith _
  allocBody _ _ := grows_allocWith _
  setValue := grows_setValue
  cutElements owner _ := grows_modifyBody owner (Body.shape_mapElements _)
  putSlot owner _ _ _ := grows_modifyBody owner (Body.shape_putSlot _ _)

end ArenaM

namespace Arena

/-! ### Collections -/

theorem mem_freed {a : Arena} {unseen : List Reference} {id : SlotId} :
    id ∈ a.freed unseen ↔ a.isLive id ∧ .slot id ∈ unseen := by
  simp only [freed, List.mem_filter, mem_liveSlots, decide_eq_true_eq]

theorem getElem?_sweep_eq_some_none (a : Arena) (unseen : List Reference) (id : SlotId) :
    (a.sweep unseen).slots[id.index]? = some none ↔
      a.slots[id.index]? = some none ∨ id ∈ a.freed unseen := by
  rw [mem_freed, isLive_iff]
  simp only [sweep, Array.getElem?_mapIdx]
  rcases a.slots[id.index]? with _ | _ | slot
  · simp
  · simp
  · by_cases hslot : Reference.slot id ∈ unseen
    · simp [sweepSlot, hslot]
    · simp [sweepSlot, hslot]; split <;> simp

/-- A collection takes the freed slots from the live ones and adds them to the free ids. -/
theorem Accounted.sweep {a : Arena} (h : a.Accounted) (unseen : List Reference) :
    (a.sweep unseen).Accounted ∧
      (a.sweep unseen).live + (a.freed unseen).length = a.live := by
  have hle : (a.freed unseen).length ≤ a.live := by
    rw [← h.length_liveSlots]
    exact List.length_filter_le _ _
  have hsize := h.live_add_free
  refine ⟨⟨?_, fun id => ?_, ?_, ?_⟩, ?_⟩
  · refine List.nodup_append.mpr ⟨List.nodup_reverse.mpr (a.nodup_liveSlots.filter _),
      h.free_nodup, ?_⟩
    rintro id hfreed _ hfree rfl
    have hlive := (mem_freed.mp (List.mem_reverse.mp hfreed)).1
    exact (h.mem_free_iff_not_isLive (h.lt_size hfree)).mp hfree hlive
  · rw [getElem?_sweep_eq_some_none, ← h.mem_free_iff]
    simp only [Arena.sweep, List.mem_append, List.mem_reverse]
    exact or_comm
  · simp only [Arena.sweep, List.length_append, List.length_reverse, Array.size_mapIdx]
    omega
  · exact Nat.le_trans (Nat.sub_le _ _) h.live_le
  · simp only [Arena.sweep]
    omega

/-- What collections do to the numbers. -/
structure Shrunk (a : Arena) (freed : Nat) (a' : Arena) : Prop where
  accounted : a'.Accounted
  config_eq : a'.config = a.config
  live_eq : a'.live + freed = a.live
  size_eq : a'.slots.size = a.slots.size
  total_eq : a'.total = a.total
  freed_eq : a.config.reclamation = .disabled → freed = 0

theorem Accounted.collect {a : Arena} (h : a.Accounted) (roots : List Reference) :
    a.Shrunk (a.collect roots).1.freed (a.collect roots).2 := by
  cases hpolicy : a.config.reclamation with
  | disabled =>
    rw [collect_of_disabled hpolicy]
    exact ⟨h, rfl, rfl, rfl, rfl, fun _ => rfl⟩
  | markSweep =>
    rw [collect_of_markSweep hpolicy]
    obtain ⟨haccounted, hlive⟩ := h.sweep (a.unreached a.allReferences roots)
    refine ⟨haccounted, rfl, hlive, ?_, rfl, fun hdisabled => ?_⟩
    · exact Array.size_mapIdx
    · rw [hpolicy] at hdisabled; cases hdisabled

/-! ### Runs -/

/-- What a call can do to the numbers. -/
theorem Accounted.after {a : Arena} (h : a.Accounted) (call : ArenaCall) :
    (a.Grown (a.after call) ∧ a.freedBy call = 0) ∨ a.Shrunk (a.freedBy call) (a.after call) := by
  cases call with
  | alloc value => exact .inl ⟨(ArenaM.grows_allocWith _).stateAfter a h, rfl⟩
  | allocBody body => exact .inl ⟨(ArenaM.grows_allocWith _).stateAfter a h, rfl⟩
  | setValue slot value => exact .inl ⟨(ArenaM.grows_setValue slot value).stateAfter a h, rfl⟩
  | bindingSlot outcome => exact .inl ⟨(ArenaM.grows.bindingSlot outcome).stateAfter a h, rfl⟩
  | memberSlot outcome => exact .inl ⟨(ArenaM.grows.memberSlot outcome).stateAfter a h, rfl⟩
  | build container => exact .inl ⟨(ArenaM.grows.build container).stateAfter a h, rfl⟩
  | setProperty base key outcome =>
    exact .inl ⟨(ArenaM.grows.setProperty base key outcome).stateAfter a h, rfl⟩
  | collectSlots slots => exact .inr (h.collect _)
  | collect roots => exact .inr (h.collect roots)

theorem Accounted.accounted_after {a : Arena} (h : a.Accounted) (call : ArenaCall) :
    (a.after call).Accounted := by
  rcases h.after call with ⟨hgrown, -⟩ | hshrunk
  · exact hgrown.accounted
  · exact hshrunk.accounted

theorem Accounted.config_after {a : Arena} (h : a.Accounted) (call : ArenaCall) :
    (a.after call).config = a.config := by
  rcases h.after call with ⟨hgrown, -⟩ | hshrunk
  · exact hgrown.config_eq
  · exact hshrunk.config_eq

theorem Accounted.accounted_run {a : Arena} (h : a.Accounted) (calls : List ArenaCall) :
    (a.run calls).Accounted :=
  run_induction (fun _ call ha => ha.accounted_after call) h calls

/-- Every arena on the way is in step, and has the configuration of the first. -/
theorem Accounted.of_mem_states {a s : Arena} (h : a.Accounted) {calls : List ArenaCall}
    (hs : s ∈ a.states calls) : s.Accounted ∧ s.config = a.config := by
  induction calls generalizing a with
  | nil =>
    rw [states_nil, List.mem_singleton] at hs
    subst hs
    exact ⟨h, rfl⟩
  | cons call calls ih =>
    rw [states_cons] at hs
    rcases List.mem_cons.mp hs with rfl | hs
    · exact ⟨h, rfl⟩
    · obtain ⟨haccounted, hconfig⟩ := ih (h.accounted_after call) hs
      exact ⟨haccounted, hconfig.trans (h.config_after call)⟩

theorem Accounted.config_run {a : Arena} (h : a.Accounted) (calls : List ArenaCall) :
    (a.run calls).config = a.config := by
  induction calls generalizing a with
  | nil => rfl
  | cons call calls ih => exact (ih (h.accounted_after call)).trans (h.config_after call)

/-- What was allocated in a run is live at its end or was freed in it. -/
theorem Accounted.total_run {a : Arena} (h : a.Accounted) (calls : List ArenaCall) :
    (a.run calls).total + a.live = a.total + ((a.run calls).live + a.freedDuring calls) := by
  induction calls generalizing a with
  | nil => rfl
  | cons call calls ih =>
    have hrest := ih (h.accounted_after call)
    simp only [run_cons, freedDuring]
    rcases h.after call with ⟨hgrown, hfreed⟩ | hshrunk
    · have htotal := hgrown.total_eq
      omega
    · have htotal := hshrunk.total_eq
      have hlive := hshrunk.live_eq
      omega

theorem Accounted.freedDuring_eq_zero {a : Arena} (h : a.Accounted)
    (hpolicy : a.config.reclamation = .disabled) (calls : List ArenaCall) :
    a.freedDuring calls = 0 := by
  induction calls generalizing a with
  | nil => rfl
  | cons call calls ih =>
    have hrest := ih (h.accounted_after call) (by rw [h.config_after]; exact hpolicy)
    simp only [freedDuring, hrest, Nat.add_zero]
    rcases h.after call with ⟨-, hfreed⟩ | hshrunk
    · exact hfreed
    · exact hshrunk.freed_eq hpolicy

/-- A call leaves the size of the table as it was, or makes it the number of live slots. -/
theorem Accounted.size_after {a : Arena} (h : a.Accounted) (call : ArenaCall) :
    a.slots.size ≤ (a.after call).slots.size ∧
      ((a.after call).slots.size = a.slots.size ∨
        (a.after call).slots.size = (a.after call).live) := by
  have hsize := h.live_add_free
  rcases h.after call with ⟨hgrown, -⟩ | hshrunk
  · have := hgrown.size_eq
    omega
  · have := hshrunk.size_eq
    omega

/-- The table grows only when every entry is live, so its size is the size that it had or the largest
number of live slots on the way. -/
theorem Accounted.size_run {a : Arena} (h : a.Accounted) (calls : List ArenaCall) :
    IsGreatest (insert a.slots.size {n | ∃ s ∈ a.states calls, s.live = n})
      (a.run calls).slots.size := by
  induction calls generalizing a with
  | nil =>
    refine ⟨Set.mem_insert _ _, ?_⟩
    rintro n (rfl | ⟨s, hs, rfl⟩)
    · exact Nat.le_refl _
    · rw [states_nil, List.mem_singleton] at hs
      subst hs
      have := h.live_add_free
      simp only [run_nil]; omega
  | cons call calls ih =>
    obtain ⟨hmem, hbound⟩ := ih (h.accounted_after call)
    have hsize := h.live_add_free
    obtain ⟨hgrows, hstep⟩ := h.size_after call
    have hle := hbound (Set.mem_insert _ _)
    simp only [run_cons, states_cons]
    constructor
    · rcases hmem with heq | ⟨s, hs, heq⟩
      · rw [heq]
        rcases hstep with hsame | hlive
        · exact .inl hsame
        · exact .inr ⟨_, List.mem_cons_of_mem _ ((a.after call).mem_states_self calls), hlive.symm⟩
      · exact .inr ⟨s, List.mem_cons_of_mem _ hs, heq⟩
    · rintro n (rfl | ⟨s, hs, rfl⟩)
      · exact Nat.le_trans hgrows hle
      · rcases List.mem_cons.mp hs with rfl | hs
        · omega
        · exact hbound (.inr ⟨s, hs, rfl⟩)

/-- From an empty table on, the size is the largest number of live slots on the way. -/
theorem isGreatest_size_run (config : ArenaConfig) (calls : List ArenaCall) :
    IsGreatest {n | ∃ s ∈ (new config).states calls, s.live = n}
      ((new config).run calls).slots.size := by
  have hgreatest := (accounted_new config).size_run calls
  have hempty : (new config).slots.size ∈ {n | ∃ s ∈ (new config).states calls, s.live = n} :=
    ⟨new config, (new config).mem_states_self calls, rfl⟩
  rwa [Set.insert_eq_of_mem hempty] at hgreatest

/-- So the ids fit in 32 bits, as the capacity does. -/
theorem size_run_le (config : ArenaConfig) (calls : List ArenaCall) :
    ((new config).run calls).slots.size ≤ config.capacity.toNat := by
  obtain ⟨s, hs, heq⟩ := (isGreatest_size_run config calls).1
  obtain ⟨haccounted, hsame⟩ := (accounted_new config).of_mem_states hs
  have hle := haccounted.live_le
  rw [hsame] at hle
  exact heq ▸ hle

/-- **An arena is in step after any run of calls.** The live slots are the occupied entries and the
free ids the others; the capacity bounds the live slots, and the size of the table is the largest
number of them on the way; what was allocated and is not live was freed by a collection. An
allocation fails exactly when the capacity is used up, and otherwise takes an id that was not live
and leaves every other slot as it was. -/
theorem run_accounted (config : ArenaConfig) (calls : List ArenaCall) :
    let a := (new config).run calls
    a.live = a.slots.countP (·.isSome) ∧
    (a.free.Nodup ∧ ∀ id, id ∈ a.free ↔ a.slots[id.index]? = some none) ∧
    a.live ≤ config.capacity.toNat ∧
    IsGreatest {n | ∃ s ∈ (new config).states calls, s.live = n} a.slots.size ∧
    a.slots.size ≤ config.capacity.toNat ∧
    a.total = a.live + (new config).freedDuring calls ∧
    (config.reclamation = .disabled → a.live = a.total) ∧
    ∀ content : SlotId → Slot,
      if config.capacity.toNat ≤ a.live then
        ArenaM.allocWith content a = .error (.exhausted config.capacity) a
      else
        ∃ id a', ArenaM.allocWith content a = .ok id a' ∧ ¬ a.isLive id ∧
          a'.get? id = some (content id) ∧ ∀ other, other ≠ id → a'.get? other = a.get? other := by
  intro a
  have hnew := accounted_new config
  have ha : a.Accounted := hnew.accounted_run calls
  have hconfig : a.config = config := hnew.config_run calls
  have htotal : a.total = a.live + (new config).freedDuring calls :=
    (hnew.total_run calls).trans (Nat.zero_add _)
  refine ⟨ha.live_eq_countP, ⟨ha.free_nodup, ha.mem_free_iff⟩, ?_, isGreatest_size_run config calls,
    size_run_le config calls, htotal, ?_, ?_⟩
  · rw [← hconfig]
    exact ha.live_le
  · intro hpolicy
    rw [htotal, hnew.freedDuring_eq_zero hpolicy, Nat.add_zero]
  · intro content
    have hcases := ha.allocWith_cases content
    rwa [hconfig] at hcases

end Arena

end SlotScript
