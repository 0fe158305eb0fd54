import SlotScript.Proofs.Elements

/-!
# Arrays as partial functions

Seen from outside, the elements of an array are a partial function from indices to slots, with a length. Each
call on the elements is a plain operation on that function (`Elements.toPartial_after`), as long as no slot is put
at the greatest index: then the cells lie below the length, and cells that a shorter length does not reach need
not be looked for when it grows again. So any run of calls does the same to both (`Elements.run_refines`).
-/

namespace SlotScript

/-- A partial function from indices to slots, with a length. -/
@[ext] structure PartialArray where
  slotAt : Nat → Option SlotId
  length : Nat

namespace PartialArray

/-- The slots at the indices from zero on, as many as have one. -/
def ofList (slots : List SlotId) : PartialArray where
  slotAt index := if index < maxArrayLength then slots[index]? else none
  length := min slots.length maxArrayLength

/-- Maps an index to a slot. The length takes in the index. -/
def set (a : PartialArray) (index : Nat) (slot : SlotId) : PartialArray where
  slotAt other := if other = index then some slot else a.slotAt other
  length := max a.length (index + 1)

/-- Maps the index after the last one, unless the length is the greatest. -/
def push (a : PartialArray) (slot : SlotId) : PartialArray :=
  if a.length = maxArrayLength then a else a.set a.length slot

/-- Changes the length. The indices that it does not take in are forgotten. -/
def setLength (a : PartialArray) (length : Nat) : PartialArray where
  slotAt index := if index < length then a.slotAt index else none
  length := length

/-- The partial function after a call. -/
def after (a : PartialArray) : ElementsCall → PartialArray
  | .push slot => a.push slot
  | .set index slot => a.set index.toNat slot
  | .setLength length => a.setLength length.toNat

/-- The partial function after some calls. -/
def run (a : PartialArray) (calls : List ElementsCall) : PartialArray := calls.foldl after a

theorem run_concat (a : PartialArray) (calls : List ElementsCall) (call : ElementsCall) :
    a.run (calls ++ [call]) = (a.run calls).after call := by
  rw [run, List.foldl_append]
  rfl

theorem ofList_concat (slots : List SlotId) (slot : SlotId) :
    ofList (slots ++ [slot]) = (ofList slots).push slot := by
  unfold push
  by_cases h : slots.length < maxArrayLength
  · have hlength : (ofList slots).length = slots.length := Nat.min_eq_left (Nat.le_of_lt h)
    rw [hlength, if_neg (Nat.ne_of_lt h)]
    ext index
    · simp only [ofList, set, List.getElem?_append]
      grind
    · simp only [ofList, set, List.length_append, List.length_singleton]
      omega
  · have hlength : (ofList slots).length = maxArrayLength := Nat.min_eq_right (Nat.not_lt.mp h)
    rw [hlength, if_pos rfl]
    ext index
    · simp only [ofList, List.getElem?_append]
      grind
    · simp only [ofList, List.length_append, List.length_singleton]
      omega

end PartialArray

/-- No slot is put at the greatest index, which no key addresses. -/
def ElementsCall.KeepsLastFree (calls : List ElementsCall) : Prop :=
  ∀ index slot, .set index slot ∈ calls → index.toNat < maxArrayLength

/-- The call may put the slot at the index. -/
def ElementsCall.Puts (index : Nat) (slot : SlotId) : ElementsCall → Prop
  | .push other => other = slot
  | .set other otherSlot => other.toNat = index ∧ otherSlot = slot
  | .setLength _ => False

namespace PartialArray

/-- A call leaves an index as it is, forgets it or puts a slot there. -/
theorem slotAt_after {a : PartialArray} {call : ElementsCall} {index : Nat} {slot : SlotId}
    (h : (a.after call).slotAt index = some slot) : a.slotAt index = some slot ∨ call.Puts index slot := by
  cases call with
  | push other =>
    change (a.push other).slotAt index = some slot at h
    unfold push at h
    split at h
    · exact .inl h
    · change (if index = a.length then some other else a.slotAt index) = some slot at h
      split at h
      · exact .inr (Option.some.inj h)
      · exact .inl h
  | set other otherSlot =>
    change (if index = other.toNat then some otherSlot else a.slotAt index) = some slot at h
    split at h
    · next heq => exact .inr ⟨heq.symm, Option.some.inj h⟩
    · exact .inl h
  | setLength length =>
    change (if index < length.toNat then a.slotAt index else none) = some slot at h
    split at h
    · exact .inl h
    · cases h

/-- What is at an index after some calls was there before them, or one of them put it there. -/
theorem slotAt_run {a : PartialArray} {calls : List ElementsCall} {index : Nat} {slot : SlotId}
    (h : (a.run calls).slotAt index = some slot) :
    a.slotAt index = some slot ∨ ∃ call ∈ calls, call.Puts index slot := by
  induction calls using List.reverseRecOn with
  | nil => exact .inl h
  | append_singleton calls call ih =>
    rw [run_concat] at h
    rcases slotAt_after h with hbefore | hputs
    · refine (ih hbefore).imp_right fun ⟨other, hmem, hother⟩ => ?_
      exact ⟨other, List.mem_append_left _ hmem, hother⟩
    · exact .inr ⟨call, List.mem_append_right _ (List.mem_singleton.mpr rfl), hputs⟩

end PartialArray

namespace Elements

open ElementsCall (KeepsLastFree)
open PartialArray (slotAt_run)

/-- The elements from outside. -/
def toPartial (e : Elements) : PartialArray := ⟨e.get?, e.length⟩

variable {e : Elements}

/-- Cells in order are what a look-up finds. -/
theorem WellFormed.mem_cells_iff (h : e.WellFormed) {index : Nat} {slot : SlotId} :
    (index, slot) ∈ e.cells ↔ e.get? index = some slot := by
  refine (lookup_eq_some_iff_mem ?_).symm
  rw [List.Nodup, List.pairwise_map]
  exact h.ascending.imp Nat.ne_of_lt

/-! ### Calls on both -/

theorem toPartial_set {index : Nat} (hindex : index < maxArrayLength) (slot : SlotId) :
    (e.set index slot).toPartial = e.toPartial.set index slot := by
  ext other
  · simp only [toPartial, PartialArray.set, get?_set]
  · simp only [toPartial, PartialArray.set, Elements.set]
    split <;> omega

theorem WellFormed.toPartial_push (h : e.WellFormed) (slot : SlotId) :
    (e.push slot).toPartial = e.toPartial.push slot := by
  have hle : e.length ≤ maxArrayLength := h.length_le
  have hlength : e.toPartial.length = e.length := rfl
  unfold Elements.push PartialArray.push
  rw [hlength]
  split
  · next hlt => rw [if_neg (Nat.ne_of_lt hlt), toPartial_set hlt]
  · next hnlt => rw [if_pos (Nat.le_antisymm hle (Nat.not_lt.mp hnlt))]

/-- Where the cells lie below the length, a shorter length cuts off all that it does not take in. -/
theorem toPartial_setLength (h : ∀ cell ∈ e.cells, cell.1 < e.length) (length : Nat) :
    (e.setLength length).toPartial = e.toPartial.setLength length := by
  refine PartialArray.ext (funext fun index => ?_) rfl
  simp only [toPartial, PartialArray.setLength, get?_setLength]
  by_cases hindex : index < length
  · rw [if_pos hindex, if_pos (.inr hindex)]
  · rw [if_neg hindex]
    split
    · next hkept =>
      have hle : e.length ≤ length := hkept.resolve_right hindex
      refine get?_eq_none_iff.mpr fun cell hcell => ?_
      have := h cell hcell
      omega
    · rfl

theorem toPartial_after (h : e.WellFormed) (hbelow : ∀ cell ∈ e.cells, cell.1 < e.length) {call : ElementsCall}
    (hcall : ∀ index slot, call = .set index slot → index.toNat < maxArrayLength) :
    (e.after call).toPartial = e.toPartial.after call := by
  cases call with
  | push slot => exact h.toPartial_push slot
  | set index slot => exact toPartial_set (hcall index slot rfl) slot
  | setLength length => exact toPartial_setLength hbelow length.toNat

theorem toPartial_ofList (slots : List SlotId) : (ofList slots).toPartial = PartialArray.ofList slots := by
  induction slots using List.reverseRecOn with
  | nil => exact PartialArray.ext (funext fun index => (ite_self none).symm) rfl
  | append_singleton slots slot ih =>
    have hwell : (ofList slots).WellFormed := (wellFormed_confined_run slots []).1
    rw [ofList_concat, PartialArray.ofList_concat, hwell.toPartial_push slot, ih]

/-- Where no slot is put at the greatest index, the cells lie below the length. -/
theorem below_length_of_keepsLastFree {calls : List ElementsCall} (h : KeepsLastFree calls) (slots : List SlotId) :
    ∀ cell ∈ ((ofList slots).run calls).cells, cell.1 < ((ofList slots).run calls).length := by
  refine (below_length_run_iff slots calls).mpr fun slot later hlater => ?_
  exact absurd (h lastIndex slot (hlater.subset List.mem_cons_self)) (Nat.lt_irrefl _)

/-- The elements do what the partial function does. -/
theorem toPartial_run {calls : List ElementsCall} (h : KeepsLastFree calls) (slots : List SlotId) :
    ((ofList slots).run calls).toPartial = (PartialArray.ofList slots).run calls := by
  induction calls using List.reverseRecOn with
  | nil => exact toPartial_ofList slots
  | append_singleton calls call ih =>
    have hbefore : KeepsLastFree calls := fun index slot hmem => h index slot (List.mem_append_left _ hmem)
    rw [run_concat, PartialArray.run_concat, ← ih hbefore]
    refine toPartial_after (wellFormed_confined_run slots calls).1 (below_length_of_keepsLastFree hbefore slots) ?_
    rintro index slot rfl
    exact h index slot (List.mem_append_right _ List.mem_cons_self)

/-- **Elements refine a partial function.** From any slots and through any calls that leave the greatest index
alone, length and look-up are those of the partial function, and the cells list what it maps, in ascending order of
indices. What a shorter length cuts off does not come back: a slot found there later was put there since. -/
theorem run_refines (slots : List SlotId) (calls : List ElementsCall) (h : KeepsLastFree calls) :
    ((ofList slots).run calls).length = ((PartialArray.ofList slots).run calls).length ∧
      (∀ index, ((ofList slots).run calls).get? index = ((PartialArray.ofList slots).run calls).slotAt index) ∧
      ((ofList slots).run calls).cells.Pairwise (·.1 < ·.1) ∧
      (∀ index slot, (index, slot) ∈ ((ofList slots).run calls).cells ↔
        ((PartialArray.ofList slots).run calls).slotAt index = some slot) ∧
      ∀ before length later, calls = before ++ .setLength length :: later → ∀ index slot,
        length.toNat ≤ index → ((ofList slots).run calls).get? index = some slot →
          ∃ call ∈ later, call.Puts index slot := by
  have hwell : ((ofList slots).run calls).WellFormed := (wellFormed_confined_run slots calls).1
  have hsame := toPartial_run h slots
  have hlookup (index : Nat) :
      ((ofList slots).run calls).get? index = ((PartialArray.ofList slots).run calls).slotAt index :=
    congrFun (congrArg PartialArray.slotAt hsame) index
  refine ⟨congrArg PartialArray.length hsame, hlookup, hwell.ascending, fun index slot => ?_, ?_⟩
  · rw [hwell.mem_cells_iff, hlookup]
  · rintro before length later rfl index slot hindex hslot
    rw [hlookup, PartialArray.run, List.foldl_append, List.foldl_cons] at hslot
    refine (slotAt_run hslot).resolve_left fun hkept => ?_
    change (if index < length.toNat then _ else none) = some slot at hkept
    rw [if_neg (Nat.not_lt.mpr hindex)] at hkept
    cases hkept

/-- An element that was cut off does not come back; one that is pushed does. -/
theorem run_refines_truncating :
    let slots : List SlotId := [⟨1⟩, ⟨2⟩, ⟨3⟩]
    let later : List ElementsCall := [.setLength 3, .push ⟨8⟩]
    let calls : List ElementsCall := [.set 4294967294 ⟨7⟩] ++ .setLength 1 :: later
    KeepsLastFree calls ∧ ((ofList slots).run calls).length = 4 ∧ ((ofList slots).run calls).get? 1 = none ∧
      ((ofList slots).run calls).get? 3 = some ⟨8⟩ ∧ ∃ call ∈ later, call.Puts 3 ⟨8⟩ := by
  intro slots later calls
  have hfree : KeepsLastFree calls := by
    intro index slot hmem
    obtain ⟨rfl, -⟩ : index = 4294967294 ∧ slot = ⟨7⟩ := by simpa [calls, later] using hmem
    decide
  obtain ⟨hlength, hlookup, -, -, hcut⟩ := run_refines slots calls hfree
  have hpushed : ((ofList slots).run calls).get? 3 = some ⟨8⟩ := (hlookup 3).trans rfl
  exact ⟨hfree, hlength.trans rfl, (hlookup 1).trans rfl, hpushed,
    hcut [.set 4294967294 ⟨7⟩] 1 later rfl 3 ⟨8⟩ (by decide) hpushed⟩

end Elements

end SlotScript
