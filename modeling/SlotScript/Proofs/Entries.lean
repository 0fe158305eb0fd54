import SlotScript.Proofs.Body
import Mathlib.Data.List.Induction

/-!
# Entries put in one after the other

A table of names that entries were put into in turn lists each name once, in the order of their first
occurrence (`NameTable.names_ofList`), with the slot of its last entry (`NameTable.get?_ofList`). The
elements of a new array are the slots that were put into it, at the indices from zero on
(`Elements.ofList_eq`).
-/

namespace SlotScript

/-! ### Tables of names -/

namespace NameTable

/-- The names, in order. -/
def names (t : NameTable) : List String := t.entries.map (·.1)

theorem names_insert (t : NameTable) (name : String) (slot : SlotId) :
    (t.insert name slot).names = if name ∈ t.names then t.names else t.names ++ [name] := by
  obtain ⟨entries⟩ := t
  show (getThenInsert.go name slot entries).2.map (·.1) =
    if name ∈ entries.map (·.1) then entries.map (·.1) else entries.map (·.1) ++ [name]
  induction entries with
  | nil => rfl
  | cons entry rest ih =>
    by_cases h : entry.1 = name
    · simp only [getThenInsert.go, List.map_cons, h, List.mem_cons_self, if_true]
    · simp only [getThenInsert.go, if_neg h, List.map_cons, ih, List.mem_cons, Ne.symm h, false_or,
        List.cons_append, apply_ite (entry.1 :: ·)]

theorem ofList_concat (entries : List (String × SlotId)) (name : String) (slot : SlotId) :
    ofList (entries ++ [(name, slot)]) = (ofList entries).insert name slot := by
  simp only [ofList, List.foldl_append, List.foldl_cons, List.foldl_nil]

/-- Each name is listed once, in the order of their first occurrence. -/
theorem names_ofList (entries : List (String × SlotId)) :
    (ofList entries).names = (entries.map (·.1)).eraseDups := by
  induction entries using List.reverseRecOn with
  | nil => rfl
  | append_singleton entries entry ih =>
    obtain ⟨name, slot⟩ := entry
    rw [ofList_concat, names_insert, ih, List.map_append, List.eraseDups_append]
    simp only [List.mem_eraseDups]
    by_cases h : name ∈ entries.map (·.1)
    · simp [List.removeAll, h]
    · simp [List.removeAll, List.eraseDups_cons, h]

/-- The last entry with a name counts. -/
theorem get?_ofList (entries : List (String × SlotId)) (name : String) :
    (ofList entries).get? name = entries.reverse.lookup name := by
  induction entries using List.reverseRecOn with
  | nil => rfl
  | append_singleton entries entry ih =>
    obtain ⟨last, slot⟩ := entry
    rw [ofList_concat, get?_insert, ih, List.reverse_concat, List.lookup_cons]
    by_cases h : name = last <;> simp [h, beq_eq_false_iff_ne.mpr]

/-- A name has the slot of an entry that no entry with the name comes after. -/
theorem get?_ofList_eq_some_iff {entries : List (String × SlotId)} {name : String} {slot : SlotId} :
    (ofList entries).get? name = some slot ↔
      ∃ before after, entries = before ++ (name, slot) :: after ∧ name ∉ after.map (·.1) := by
  rw [get?_ofList, List.lookup_eq_some_iff]
  constructor
  · rintro ⟨after, before, hsplit, hafter⟩
    refine ⟨before.reverse, after.reverse, ?_, ?_⟩
    · rw [← List.reverse_inj, hsplit]
      simp
    · intro hmem
      obtain ⟨entry, hentry, rfl⟩ := List.mem_map.mp hmem
      exact bne_iff_ne.mp (hafter entry (List.mem_reverse.mp hentry)) rfl
  · rintro ⟨before, after, rfl, hlast⟩
    refine ⟨after.reverse, before.reverse, by simp, fun entry hentry => bne_iff_ne.mpr ?_⟩
    rintro rfl
    exact hlast (List.mem_map_of_mem (List.mem_reverse.mp hentry))

end NameTable

/-! ### Elements -/

namespace Elements

theorem insertCell_of_lt {index : Nat} {cells : List (Nat × SlotId)}
    (h : ∀ cell ∈ cells, cell.1 < index) (slot : SlotId) :
    insertCell index slot cells = cells ++ [(index, slot)] := by
  induction cells with
  | nil => rfl
  | cons cell rest ih =>
    have hcell : cell.1 < index := h cell List.mem_cons_self
    rw [insertCell, if_neg (Nat.lt_asymm hcell), if_neg (Nat.ne_of_gt hcell),
      ih fun other hother => h other (List.mem_cons_of_mem _ hother), List.cons_append]

theorem ofList_concat (slots : List SlotId) (slot : SlotId) :
    ofList (slots ++ [slot]) = (ofList slots).push slot := by
  simp only [ofList, List.foldl_append, List.foldl_cons, List.foldl_nil]

/-- The slots have the indices from zero on. -/
theorem ofList_eq {slots : List SlotId} (h : slots.length ≤ maxArrayLength) :
    ofList slots = { cells := (List.range slots.length).zip slots, length := slots.length } := by
  induction slots using List.reverseRecOn with
  | nil => rfl
  | append_singleton slots slot ih =>
    rw [List.length_append, List.length_singleton] at h ⊢
    have hbelow : ∀ cell ∈ (List.range slots.length).zip slots, cell.1 < slots.length :=
      fun cell hcell => List.mem_range.mp (List.of_mem_zip hcell).1
    rw [ofList_concat, ih (by omega), push, if_pos (Nat.lt_of_succ_le h), set, if_pos (Nat.le_refl _),
      insertCell_of_lt hbelow, Nat.min_eq_left h, List.range_succ, List.zip_append (List.length_range)]
    rfl

theorem length_ofList {slots : List SlotId} (h : slots.length ≤ maxArrayLength) :
    (ofList slots).length = slots.length := by rw [ofList_eq h]

theorem get?_ofList {slots : List SlotId} (h : slots.length ≤ maxArrayLength) (index : Nat) :
    (ofList slots).get? index = slots[index]? := by
  induction slots using List.reverseRecOn with
  | nil => rfl
  | append_singleton slots slot ih =>
    rw [List.length_append, List.length_singleton] at h
    have hlength : (ofList slots).length = slots.length := length_ofList (by omega)
    rw [ofList_concat, push, if_pos (by omega), get?_set, hlength, ih (by omega), List.getElem?_append]
    by_cases hindex : index < slots.length
    · rw [if_neg (by omega), if_pos hindex]
    · rw [if_neg hindex, List.getElem?_singleton, List.getElem?_eq_none (by omega)]
      simp only [show index = slots.length ↔ index - slots.length = 0 by omega]

end Elements

end SlotScript
