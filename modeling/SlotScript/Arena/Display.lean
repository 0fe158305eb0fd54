import SlotScript.Arena.Basic

/-!
The text of a value with the contents of its containers.

A text is printed as it is at the top and quoted inside a container. A container met again inside
itself is printed as `[Circular]`.
-/

namespace SlotScript

/-! ### Bodies -/

/-- A run of holes in an array. -/
def holes (count : Nat) : String :=
  if count = 1 then "<empty>" else "<" ++ toString count ++ " empty items>"

/-- The items of the elements at index `start` and after: an item for each slot, and one for each run
of holes before, between and after the slots. -/
def Elements.items (print : SlotId → String) (length : Nat) :
    (start : Nat) → (cells : List (Nat × SlotId)) → List String
  | start, [] => if start < length then [holes (length - start)] else []
  | start, (index, slot) :: rest =>
    let before := if start < index then [holes (index - start)] else []
    before ++ print slot :: items print length (nextIndex index) rest

/-- The items of a property table. -/
def NameTable.items (print : SlotId → String) (t : NameTable) : List String :=
  t.entries.map fun (name, slot) => name ++ ": " ++ print slot

/-- Items separated by commas. -/
def commaSeparated (items : List String) : String := ", ".intercalate items

/-- The text of a body, with its members printed by `print`. Properties of a function are left
out. -/
def Body.print (print : SlotId → String) (b : Body) : String :=
  match b.content with
  | .object => "\x7b" ++ commaSeparated (b.properties.items print) ++ "\x7d"
  | .array elements =>
    "[" ++ commaSeparated (Elements.items print elements.length 0 elements.cells ++
      b.properties.items print) ++ "]"
  | .function parameters _ _ => "<function(" ++ commaSeparated parameters ++ ")>"

namespace Arena

/-- The slots that own a body and are not among the open ones. -/
def unopened (a : Arena) (opened : List SlotId) : List SlotId :=
  a.liveSlots.filter fun id => (a.body id).isOk && id ∉ opened

theorem length_unopened_lt {a : Arena} {opened : List SlotId} {owner : SlotId} {body : Body}
    (closed : owner ∉ opened) (h : a.body owner = .ok body) :
    (a.unopened (owner :: opened)).length < (a.unopened opened).length := by
  have sub : a.unopened (owner :: opened) = (a.unopened opened).filter (· ≠ owner) := by
    simp only [unopened, List.filter_filter, List.mem_cons, not_or]
    refine List.filter_congr fun id _ => ?_
    grind
  have mem : owner ∈ a.unopened opened := by
    simp only [unopened, List.mem_filter, mem_liveSlots]
    exact ⟨isLive_of_body h, by simp [h, closed, Except.isOk, Except.toBool]⟩
  rw [sub]
  exact List.length_filter_lt_length_iff_exists.2 ⟨owner, mem, by simp⟩

/-- The text of a value inside the containers owned by `opened`. -/
def print (a : Arena) (opened : List SlotId) (value : Value) : String :=
  match value with
  | .text s => Text.quote s
  | .compound _ owner =>
    if _ : owner ∈ opened then "[Circular]"
    else
      match _ : a.body owner with
      | .error _ => value.toText
      | .ok body =>
        body.print fun member =>
          match a.value member with
          | .ok value => a.print (owner :: opened) value
          | .error _ => "<dangling>"
  | _ => value.toText
termination_by (a.unopened opened).length
decreasing_by exact length_unopened_lt ‹_› ‹_›

/-- The text of a value for people. -/
def display (a : Arena) (value : Value) : String :=
  match value with
  | .text s => s
  | _ => a.print [] value

end Arena

end SlotScript
