import SlotScript.Proofs.Entries
import Mathlib.Data.List.Basic

/-!
# Tables of names through insertions

`NameTable.getThenInsertMany` makes insertions in a row and lists what they return. One insertion puts a name at
the end if it is new and leaves it where it is otherwise (`NameTable.names_insert`), and gives it the slot
(`NameTable.get?_insert`). So through any insertions the names are in the order of the first ones
(`NameTable.pairwise_names_ofList`) and have the slots of the last ones (`NameTable.get?_ofList_eq_some_iff`).
`NameTable.getThenInsertMany_tabulates` puts this together.
-/

namespace SlotScript

namespace NameTable

variable {t : NameTable} {entries : List (String × SlotId)} {name other : String}

/-- Inserts the entries in turn, and returns what each insertion returns. -/
def getThenInsertMany (t : NameTable) : List (String × SlotId) → List (Option SlotId) × NameTable
  | [] => ([], t)
  | (name, slot) :: rest =>
    let (previous, t) := t.getThenInsert name slot
    let (returned, t) := t.getThenInsertMany rest
    (previous :: returned, t)

@[simp] theorem getThenInsertMany_nil (t : NameTable) : t.getThenInsertMany [] = ([], t) := rfl

@[simp] theorem getThenInsertMany_cons (t : NameTable) (entry : String × SlotId) (rest : List (String × SlotId)) :
    t.getThenInsertMany (entry :: rest) =
      (t.get? entry.1 :: ((t.insert entry.1 entry.2).getThenInsertMany rest).1,
        ((t.insert entry.1 entry.2).getThenInsertMany rest).2) := by
  rw [← getThenInsert_fst t entry.1 entry.2]
  rfl

/-- The table is the one that the entries make. -/
theorem getThenInsertMany_snd (entries : List (String × SlotId)) :
    ((∅ : NameTable).getThenInsertMany entries).2 = ofList entries := by
  have hfold (t : NameTable) : (t.getThenInsertMany entries).2 =
      entries.foldl (fun t entry => t.insert entry.1 entry.2) t := by
    induction entries generalizing t with
    | nil => rfl
    | cons entry rest ih => rw [getThenInsertMany_cons, List.foldl_cons, ih]
  exact hfold ∅

/-- What an insertion returned is what a look-up just before it gives. -/
theorem getElem?_getThenInsertMany_fst (t : NameTable) (entries : List (String × SlotId)) (i : Nat) :
    (t.getThenInsertMany entries).1[i]? =
      entries[i]?.map fun entry => (t.getThenInsertMany (entries.take i)).2.get? entry.1 := by
  induction entries generalizing t i with
  | nil => rfl
  | cons entry rest ih =>
    cases i with
    | zero => simp
    | succ i => simp [ih]

/-! ### What the table holds -/

theorem get?_eq_none_iff : t.get? name = none ↔ name ∉ t.names := by
  rw [get?, List.lookup_eq_none_iff, names, List.mem_map, not_exists]
  refine forall_congr' fun entry => ?_
  rw [bne_iff_ne, not_and, ne_comm]

/-- Where no name is there twice, each slot is the one that its name has. -/
theorem map_some_slots (h : t.names.Nodup) : t.slots.map some = t.names.map t.get? := by
  rw [slots, names, List.map_map, List.map_map]
  exact List.map_congr_left fun entry hentry => ((lookup_eq_some_iff_mem h).mpr hentry).symm

theorem mem_names_ofList : name ∈ (ofList entries).names ↔ name ∈ entries.map (·.1) := by
  rw [names_ofList, List.mem_eraseDups]

/-- The first entry with the one name is before the first entry with the other. -/
def FirstBefore (entries : List (String × SlotId)) (name other : String) : Prop :=
  (entries.map (·.1)).idxOf name < (entries.map (·.1)).idxOf other

theorem FirstBefore.ne (h : FirstBefore entries name other) : name ≠ other := by
  rintro rfl
  exact Nat.lt_irrefl _ h

/-- Entries that come after do not matter. -/
theorem FirstBefore.append (h : FirstBefore entries name other) (hname : name ∈ entries.map (·.1))
    (hother : other ∈ entries.map (·.1)) (more : List (String × SlotId)) :
    FirstBefore (entries ++ more) name other := by
  rw [FirstBefore, List.map_append, List.idxOf_append_of_mem hname, List.idxOf_append_of_mem hother]
  exact h

theorem firstBefore_concat (hname : name ∈ entries.map (·.1)) (hother : other ∉ entries.map (·.1))
    (slot : SlotId) : FirstBefore (entries ++ [(other, slot)]) name other := by
  rw [FirstBefore, List.map_append, List.idxOf_append_of_mem hname, List.idxOf_append_of_notMem hother]
  exact Nat.lt_of_lt_of_le (List.idxOf_lt_length_of_mem hname) (Nat.le_add_right _ _)

/-- The names are in the order of their first entries. -/
theorem pairwise_names_ofList (entries : List (String × SlotId)) :
    (ofList entries).names.Pairwise (FirstBefore entries) := by
  induction entries using List.reverseRecOn with
  | nil => exact .nil
  | append_singleton entries entry ih =>
    obtain ⟨name, slot⟩ := entry
    have hkept : (ofList entries).names.Pairwise (FirstBefore (entries ++ [(name, slot)])) :=
      ih.imp_of_mem fun hname hother h => h.append (mem_names_ofList.mp hname) (mem_names_ofList.mp hother) _
    rw [ofList_concat, names_insert]
    split
    · exact hkept
    · next hnew =>
      -- A new name goes to the end, after the names of all entries so far.
      refine List.pairwise_append.mpr ⟨hkept, List.pairwise_singleton _ _, fun other hother new hmem => ?_⟩
      rw [List.mem_singleton.mp hmem]
      exact firstBefore_concat (mem_names_ofList.mp hother) (mt mem_names_ofList.mpr hnew) slot

theorem nodup_names_ofList (entries : List (String × SlotId)) : (ofList entries).names.Nodup :=
  (pairwise_names_ofList entries).imp FirstBefore.ne

/-- What is in the table after insertions of these entries into an empty one, and what they returned. -/
structure Tabulates (entries : List (String × SlotId)) (returned : List (Option SlotId)) (t : NameTable) :
    Prop where
  nodup : t.names.Nodup
  mem_names_iff : ∀ name, name ∈ t.names ↔ name ∈ entries.map (·.1)
  ordered : t.names.Pairwise (FirstBefore entries)
  get?_eq_none_iff : ∀ name, t.get? name = none ↔ name ∉ entries.map (·.1)
  /-- The last entry with a name counts. -/
  get?_eq_some_iff : ∀ name slot, t.get? name = some slot ↔
    ∃ before after, entries = before ++ (name, slot) :: after ∧ name ∉ after.map (·.1)
  /-- An insertion returned what a look-up just before it gives, in the table of the entries up to there. -/
  returned_eq : ∀ i : Nat, returned[i]? = entries[i]?.map fun entry => (ofList (entries.take i)).get? entry.1
  slots_eq : t.slots.map some = t.names.map t.get?

/-- **Insertions into an empty table** list each name once, in the order of the first insertions, with the slot of
its last insertion, and return the slots that the names had before. -/
theorem getThenInsertMany_tabulates (entries : List (String × SlotId)) :
    Tabulates entries ((∅ : NameTable).getThenInsertMany entries).1
      ((∅ : NameTable).getThenInsertMany entries).2 := by
  rw [getThenInsertMany_snd]
  have hnodup := nodup_names_ofList entries
  exact {
    nodup := hnodup
    mem_names_iff := fun _ => mem_names_ofList
    ordered := pairwise_names_ofList entries
    get?_eq_none_iff := fun _ => get?_eq_none_iff.trans (not_congr mem_names_ofList)
    get?_eq_some_iff := fun _ _ => get?_ofList_eq_some_iff
    returned_eq := fun i => by simp only [getElem?_getThenInsertMany_fst, getThenInsertMany_snd]
    slots_eq := map_some_slots hnodup }

/-- A name that is inserted again keeps its place. -/
example : (∅ : NameTable).getThenInsertMany [("a", ⟨1⟩), ("b", ⟨2⟩), ("a", ⟨9⟩)] =
    ([none, none, some ⟨1⟩], ⟨[("a", ⟨9⟩), ("b", ⟨2⟩)]⟩) := by decide

end NameTable

end SlotScript
