import SlotScript.Slot

/-!
The elements of an array: a length, and a slot at some of the indices. An index without a slot is a
hole. Indices and lengths fit in 32 bits.
-/

namespace SlotScript

/-- The greatest length of an array. -/
def maxArrayLength : Nat := 4294967295

/-- The index that follows in 32 bits: the greatest one is followed by zero. -/
def nextIndex (index : Nat) : Nat := if index < maxArrayLength then index + 1 else 0

/-- The elements of an array; `cells` is in ascending order of indices. -/
structure Elements where
  cells : List (Nat × SlotId) := []
  length : Nat := 0
deriving DecidableEq

namespace Elements

def empty : Elements := {}

instance : EmptyCollection Elements := ⟨empty⟩

/-- Whether the length is zero. -/
def isEmpty (e : Elements) : Bool := e.length = 0

/-- The slot at an index. -/
def get? (e : Elements) (index : Nat) : Option SlotId := e.cells.lookup index

/-- The slots, in the order of their indices. -/
def slots (e : Elements) : List SlotId := e.cells.map (·.2)

/-- The cells with the slot at `index` replaced or put into its place. -/
def insertCell (index : Nat) (slot : SlotId) : List (Nat × SlotId) → List (Nat × SlotId)
  | [] => [(index, slot)]
  | cell :: rest =>
    if index < cell.1 then (index, slot) :: cell :: rest
    else if index = cell.1 then (index, slot) :: rest
    else cell :: insertCell index slot rest

/-- Puts a slot at an index. The length grows to take in the index, as far as it can. -/
def set (e : Elements) (index : Nat) (slot : SlotId) : Elements where
  cells := insertCell index slot e.cells
  length := if e.length ≤ index then min (index + 1) maxArrayLength else e.length

/-- Puts a slot after the last index. An array of the greatest length stays as it is. -/
def push (e : Elements) (slot : SlotId) : Elements :=
  if e.length < maxArrayLength then e.set e.length slot else e

/-- Changes the length. Slots at indices that are cut off are forgotten. -/
def setLength (e : Elements) (length : Nat) : Elements where
  cells := if length < e.length then e.cells.filter (·.1 < length) else e.cells
  length := length

/-- The elements with these slots, without holes. -/
def ofList (slots : List SlotId) : Elements := slots.foldl push ∅

/-! ### Looking up after a change -/

theorem lookup_insertCell (index other : Nat) (slot : SlotId) (cells : List (Nat × SlotId)) :
    (insertCell index slot cells).lookup other =
      if other = index then some slot else cells.lookup other := by
  induction cells with
  | nil => by_cases h : other = index <;> simp [insertCell, List.lookup_cons, h, beq_eq_false_iff_ne.2]
  | cons cell rest ih =>
    obtain ⟨first, _⟩ := cell
    simp only [insertCell, List.lookup_cons]
    grind

theorem get?_set (e : Elements) (index other : Nat) (slot : SlotId) :
    (e.set index slot).get? other = if other = index then some slot else e.get? other :=
  lookup_insertCell index other slot e.cells

theorem get?_setLength (e : Elements) (length index : Nat) :
    (e.setLength length).get? index =
      if e.length ≤ length ∨ index < length then e.get? index else none := by
  obtain ⟨cells, old⟩ := e
  simp only [setLength, get?]
  split
  · induction cells with
    | nil => simp
    | cons cell rest ih =>
      obtain ⟨first, _⟩ := cell
      simp only [List.filter_cons, List.lookup_cons]
      grind
  · grind

end Elements

/-- The index that a key addresses: its decimal numeral without leading zeros, below the greatest
length. -/
def arrayIndex? (key : String) : Option Nat :=
  let cs := key.toList
  if cs ≠ [] ∧ cs.all Char.isDigit ∧ (cs = ['0'] ∨ cs.head? ≠ some '0') then
    let index := Nat.ofDigitChars 10 cs 0
    if index < maxArrayLength then some index else none
  else none

end SlotScript
