import SlotScript.Slot

/-!
Tables from names to slots. They hold the named properties of a container and the bindings of a
scope. Names keep the order in which they were first inserted.
-/

namespace SlotScript

/-- A table from names to slots, in order of first insertion. -/
structure NameTable where
  entries : List (String × SlotId) := []
deriving DecidableEq

namespace NameTable

def empty : NameTable := {}

instance : EmptyCollection NameTable := ⟨empty⟩

/-- The number of names. -/
def size (t : NameTable) : Nat := t.entries.length

/-- Whether the table holds no name. -/
def isEmpty (t : NameTable) : Bool := t.entries.isEmpty

/-- The slot of a name. -/
def get? (t : NameTable) (name : String) : Option SlotId := t.entries.lookup name

/-- The slots, in the order of their names. -/
def slots (t : NameTable) : List SlotId := t.entries.map (·.2)

/-- Gives `name` the slot `slot`, in place if it is there and at the end otherwise, and returns the
slot that it had. -/
def getThenInsert (t : NameTable) (name : String) (slot : SlotId) : Option SlotId × NameTable :=
  let (previous, entries) := go t.entries
  (previous, ⟨entries⟩)
where
  go : List (String × SlotId) → Option SlotId × List (String × SlotId)
    | [] => (none, [(name, slot)])
    | entry :: rest =>
      if entry.1 = name then (some entry.2, (name, slot) :: rest)
      else
        let (previous, rest) := go rest
        (previous, entry :: rest)

/-- Gives `name` the slot `slot`. -/
def insert (t : NameTable) (name : String) (slot : SlotId) : NameTable :=
  (t.getThenInsert name slot).2

/-- Removes `name` and returns the slot that it had. -/
def getThenErase (t : NameTable) (name : String) : Option SlotId × NameTable :=
  (t.get? name, ⟨t.entries.filter (·.1 ≠ name)⟩)

/-- The table with these entries inserted in turn. -/
def ofList (entries : List (String × SlotId)) : NameTable :=
  entries.foldl (fun t (name, slot) => t.insert name slot) ∅

/-! ### Looking up after a change -/

theorem getThenInsert_go (name : String) (slot : SlotId) (entries : List (String × SlotId)) :
    (getThenInsert.go name slot entries).1 = entries.lookup name ∧
      ∀ other, (getThenInsert.go name slot entries).2.lookup other =
        if other = name then some slot else entries.lookup other := by
  induction entries with
  | nil =>
    refine ⟨rfl, fun other => ?_⟩
    by_cases h : other = name <;> simp [getThenInsert.go, List.lookup_cons, h, beq_eq_false_iff_ne.2]
  | cons entry rest ih =>
    obtain ⟨first, _⟩ := entry
    by_cases h : first = name
    · subst h
      refine ⟨by simp [getThenInsert.go], fun other => ?_⟩
      by_cases h' : other = first <;>
        simp [getThenInsert.go, List.lookup_cons, h', beq_eq_false_iff_ne.2]
    · have ne : (name == first) = false := beq_eq_false_iff_ne.2 (Ne.symm h)
      refine ⟨by simp [getThenInsert.go, List.lookup_cons, h, ne, ih.1], fun other => ?_⟩
      by_cases h' : other = first <;>
        simp [getThenInsert.go, List.lookup_cons, h, h', ih.2, beq_eq_false_iff_ne.2]

/-- An insertion returns what a look-up just before it gives. -/
@[simp] theorem getThenInsert_fst (t : NameTable) (name : String) (slot : SlotId) :
    (t.getThenInsert name slot).1 = t.get? name :=
  (getThenInsert_go name slot t.entries).1

theorem get?_insert (t : NameTable) (name other : String) (slot : SlotId) :
    (t.insert name slot).get? other = if other = name then some slot else t.get? other :=
  (getThenInsert_go name slot t.entries).2 other

theorem get?_getThenErase (t : NameTable) (name other : String) :
    (t.getThenErase name).2.get? other = if other = name then none else t.get? other := by
  obtain ⟨entries⟩ := t
  simp only [getThenErase, get?]
  induction entries with
  | nil => simp
  | cons entry rest ih =>
    obtain ⟨first, _⟩ := entry
    by_cases h : first = name
    · subst h
      rw [List.filter_cons_of_neg (by simp), ih, List.lookup_cons]
      by_cases h' : other = first <;> simp [h', beq_eq_false_iff_ne.2]
    · rw [List.filter_cons_of_pos (by simpa using h), List.lookup_cons, List.lookup_cons, ih]
      by_cases h' : other = first <;> simp [h', h, beq_eq_false_iff_ne.2]

end NameTable

end SlotScript
