import SlotScript.Proofs.Arena.Added
import SlotScript.Proofs.Arena.Nesting
import SlotScript.Proofs.Elements

/-!
# Printing position by position

`Elements.walk` goes over all positions of an array and says what stands there: a slot, or a hole that goes
into the run of holes around it. Printing visits only the cells and gets the runs from the differences of
their indices (`Elements.items`). The two agree where the cells lie below the length (`items_eq_walk`), so an
array is printed as its positions are (`print_eq_walk`).

`Elements.computed` lists the numbers that printing computes on its way. They have 32 bits unless there is a
cell at the greatest index, which is where calls can leave one (`prints_in_range_iff`).
-/

namespace SlotScript

namespace Elements

/-- What is at each position below the length. -/
def positions (e : Elements) : List (Option SlotId) := (List.range e.length).map e.get?

/-- The item of a run of holes, if there are any in it. -/
def holeRun (count : Nat) : List String := if count = 0 then [] else [holes count]

/-- The items of the positions from some place on, with `missing` holes right before it: one for each slot
and one for each run of holes that is as long as it can be. -/
def walk (print : SlotId → String) : (missing : Nat) → List (Option SlotId) → List String
  | missing, [] => holeRun missing
  | missing, none :: rest => walk print (missing + 1) rest
  | missing, some slot :: rest => holeRun missing ++ print slot :: walk print 0 rest

section

variable {print : SlotId → String}

theorem holeRun_sub (start stop : Nat) :
    holeRun (stop - start) = if start < stop then [holes (stop - start)] else [] := by
  unfold holeRun
  by_cases h : start < stop
  · rw [if_pos h, if_neg (by omega)]
  · rw [if_neg h, if_pos (by omega)]

theorem walk_replicate_none (missing count : Nat) (rest : List (Option SlotId)) :
    walk print missing (List.replicate count none ++ rest) = walk print (missing + count) rest := by
  induction count generalizing missing with
  | zero => rfl
  | succ count ih =>
    rw [List.replicate_succ, List.cons_append, walk, ih]
    congr 1
    omega

/-- The entries of the cells at `count` positions from `start` on. -/
def entries (cells : List (Nat × SlotId)) (start count : Nat) : List (Option SlotId) :=
  (List.range' start count).map fun index => cells.lookup index

variable {cells : List (Nat × SlotId)} {cell : Nat × SlotId} {start : Nat}

theorem entries_of_le {count : Nat} (h : ∀ cell ∈ cells, start + count ≤ cell.1) :
    entries cells start count = List.replicate count none := by
  rw [List.eq_replicate_iff, entries, List.length_map, List.length_range']
  refine ⟨rfl, List.forall_mem_map.mpr fun index hindex => List.lookup_eq_none_iff.mpr ?_⟩
  intro cell hcell
  have := h cell hcell
  have := (List.mem_range'_1.mp hindex).2
  exact bne_iff_ne.mpr (by omega)

theorem entries_cons_of_lt (h : cell.1 < start) (count : Nat) :
    entries (cell :: cells) start count = entries cells start count := by
  refine List.map_congr_left fun index hindex => ?_
  have hne : index ≠ cell.1 := by
    have := (List.mem_range'_1.mp hindex).1
    omega
  rw [List.lookup_cons, beq_eq_false_iff_ne.mpr hne]

/-- Up to the first cell there are holes. -/
theorem entries_cons {length : Nat} (hstart : start ≤ cell.1) (hlt : cell.1 < length)
    (hasc : ∀ other ∈ cells, cell.1 < other.1) :
    entries (cell :: cells) start (length - start) =
      List.replicate (cell.1 - start) none ++
        some cell.2 :: entries cells (cell.1 + 1) (length - (cell.1 + 1)) := by
  have hcount : length - start = cell.1 - start + (length - (cell.1 + 1) + 1) := by omega
  have hfirst : start + (cell.1 - start) = cell.1 := by omega
  have hbefore : entries (cell :: cells) start (cell.1 - start) =
      List.replicate (cell.1 - start) none := by
    refine entries_of_le (List.forall_mem_cons.mpr ⟨Nat.le_of_eq hfirst, fun other hother => ?_⟩)
    have := hasc other hother
    omega
  rw [hcount, ← hbefore, ← entries_cons_of_lt (Nat.lt_succ_self cell.1)]
  unfold entries
  rw [← List.range'_append_1, hfirst, List.range'_succ, List.map_append, List.map_cons,
    List.lookup_cons_self]

/-- The cells from `start` on are printed as the positions are. -/
theorem items_eq_walk_from {length : Nat} (hlength : length ≤ maxArrayLength)
    (hasc : cells.Pairwise (·.1 < ·.1)) (hlt : ∀ cell ∈ cells, cell.1 < length)
    (hstart : ∀ cell ∈ cells, start ≤ cell.1) :
    items print length start cells = walk print 0 (entries cells start (length - start)) := by
  induction cells generalizing start with
  | nil =>
    have hnone : entries [] start (length - start) = List.replicate (length - start) none :=
      entries_of_le (List.forall_mem_nil _)
    rw [hnone, ← List.append_nil (List.replicate _ _), walk_replicate_none, Nat.zero_add, items, walk,
      holeRun_sub]
  | cons cell rest ih =>
    obtain ⟨hafter, hrest⟩ := List.pairwise_cons.mp hasc
    obtain ⟨hcell, hrestLt⟩ := List.forall_mem_cons.mp hlt
    have hnext : nextIndex cell.1 = cell.1 + 1 := if_pos (Nat.lt_of_lt_of_le hcell hlength)
    rw [entries_cons (hstart cell List.mem_cons_self) hcell hafter, walk_replicate_none, Nat.zero_add,
      walk, holeRun_sub, ← ih hrest hrestLt fun other hother => Nat.succ_le_of_lt (hafter other hother),
      items, hnext]

/-- **Printing the cells is printing the positions**, where the cells lie below the length. -/
theorem items_eq_walk {e : Elements} (h : e.WellFormed) (hlt : ∀ cell ∈ e.cells, cell.1 < e.length) :
    items print e.length 0 e.cells = walk print 0 e.positions := by
  rw [items_eq_walk_from h.length_le h.ascending hlt fun _ _ => Nat.zero_le _, positions,
    List.range_eq_range']
  rfl

end

/-- What printing computes, as exact integers: the lengths of the runs of holes, and the index after each
cell. -/
def computed (length : Nat) : (start : Nat) → List (Nat × SlotId) → List Int
  | start, [] => if start < length then [(length : Int) - start] else []
  | start, (index, _) :: rest =>
    (if start < index then [(index : Int) - start] else []) ++
      ((index : Int) + 1) :: computed length (nextIndex index) rest

/-- Only the index after a cell can leave the range of 32 bits. -/
theorem computed_in_range_iff {length : Nat} (hlength : length ≤ maxArrayLength)
    {cells : List (Nat × SlotId)} {start : Nat} :
    (∀ n ∈ computed length start cells, 0 ≤ n ∧ n ≤ maxArrayLength) ↔
      ∀ cell ∈ cells, cell.1 < maxArrayLength := by
  induction cells generalizing start with
  | nil =>
    refine iff_of_true ?_ (List.forall_mem_nil _)
    unfold computed
    split
    · refine List.forall_mem_singleton.mpr ?_
      omega
    · exact List.forall_mem_nil _
  | cons cell rest ih =>
    obtain ⟨index, slot⟩ := cell
    rw [computed, List.forall_mem_append, List.forall_mem_cons, ih, List.forall_mem_cons]
    dsimp only
    constructor
    · rintro ⟨-, hnext, hrest⟩
      exact ⟨by omega, hrest⟩
    · rintro ⟨hindex, hrest⟩
      refine ⟨?_, by omega, hrest⟩
      split
      · refine List.forall_mem_singleton.mpr ?_
        omega
      · exact List.forall_mem_nil _

end Elements

/-- The text of an array from its positions and its properties. -/
theorem Body.print_array {e : Elements} (h : e.WellFormed) (hlt : ∀ cell ∈ e.cells, cell.1 < e.length)
    (properties : NameTable) (print : SlotId → String) :
    Body.print print ⟨.array e, properties⟩ =
      "[" ++ commaSeparated (Elements.walk print 0 e.positions ++ properties.items print) ++ "]" := by
  simp only [Body.print, Elements.items_eq_walk h hlt]

namespace Arena

variable {a : Arena} {opened : List SlotId} {owner : SlotId} {e : Elements} {properties : NameTable}

/-- **An array is printed position by position**, wherever it is printed: between the brackets stand, with
commas between them, an item for each slot and one for each run of holes in the order of the positions, and
then one for each property. -/
theorem print_eq_walk (shape : Shape) (hclosed : owner ∉ opened)
    (hbody : a.body owner = .ok ⟨.array e, properties⟩) (h : e.WellFormed)
    (hlt : ∀ cell ∈ e.cells, cell.1 < e.length) :
    a.print opened (.compound shape owner) =
      "[" ++ ", ".intercalate (Elements.walk (a.printMember (owner :: opened)) 0 e.positions ++
        properties.entries.map fun entry =>
          entry.1 ++ ": " ++ a.printMember (owner :: opened) entry.2) ++ "]" := by
  rw [print_of_body shape hclosed hbody, Body.print_array h hlt]
  rfl

/-- Holes before, between and after two slots, and a property. -/
theorem print_eq_walk_holes :
    let e : Elements := { cells := [(1, ⟨0⟩), (4, ⟨9⟩)], length := 8 }
    let properties : NameTable := ⟨[("name", ⟨0⟩)]⟩
    let a := (new {}).run [.alloc (.boolean true), .allocBody ⟨.array e, properties⟩]
    let text := a.printMember [⟨1⟩]
    ((⟨1⟩ : SlotId) ∉ [] ∧ a.body ⟨1⟩ = .ok ⟨.array e, properties⟩ ∧ e.WellFormed ∧
        ∀ cell ∈ e.cells, cell.1 < e.length) ∧
      a.print [] (.compound .array ⟨1⟩) =
        "[<empty>, true, <2 empty items>, <dangling>, <3 empty items>, name: true]" ∧
      a.print [] (.compound .array ⟨1⟩) =
        "[" ++ ", ".intercalate (Elements.walk text 0 e.positions ++
          properties.entries.map fun entry => entry.1 ++ ": " ++ text entry.2) ++ "]" := by
  intro e properties a text
  have hwell : e.WellFormed := ⟨by decide, by decide⟩
  have hlt : ∀ cell ∈ e.cells, cell.1 < e.length := by decide
  exact ⟨⟨List.not_mem_nil, rfl, hwell, hlt⟩, by decide +kernel,
    print_eq_walk .array List.not_mem_nil rfl hwell hlt⟩

/-- A slot that was allocated for a body owns it. -/
theorem Accounted.body_of_allocBody (h : a.Accounted) {body : Body} {a' : Arena}
    (hact : ArenaM.allocBody body a = .ok owner a') : a'.body owner = .ok body := by
  have hallocated := (ends_ok hact).mp (h.ends_allocWith _)
  exact body_eq_ok ((hallocated.2.get?_eq owner).trans (if_pos rfl)) rfl

/-- **The numbers that printing an array computes have 32 bits, and its cells lie below its length**, exactly
as long as no slot stays at the greatest index. Then the array is displayed position by position, wherever a
run of calls has led when it is allocated. -/
theorem prints_in_range_iff (slots : List SlotId) (calls : List ElementsCall) (properties : NameTable) :
    let e := (Elements.ofList slots).run calls
    ((∀ cell ∈ e.cells, cell.1 < e.length) ↔ ElementsCall.ClearsLast calls) ∧
    ((∀ n ∈ Elements.computed e.length 0 e.cells, 0 ≤ n ∧ n ≤ maxArrayLength) ↔
      ElementsCall.ClearsLast calls) ∧
    (ElementsCall.ClearsLast calls → ∀ config before owner a',
      ArenaM.allocBody ⟨.array e, properties⟩ ((new config).run before) = .ok owner a' →
      a'.display (.compound .array owner) =
        "[" ++ commaSeparated (Elements.walk (a'.printMember [owner]) 0 e.positions ++
          properties.items (a'.printMember [owner])) ++ "]") := by
  intro e
  obtain ⟨hwell, hconfined⟩ := Elements.wellFormed_confined_run slots calls
  have hbelow := Elements.below_length_run_iff slots calls
  refine ⟨hbelow, ?_, fun hclears config before owner a' hact => ?_⟩
  · rw [Elements.computed_in_range_iff hwell.length_le, ← hconfined.below_length_iff hwell]
    exact hbelow
  · have hbody := ((accounted_new config).accounted_run before).body_of_allocBody hact
    rw [display_of_text?_eq_none rfl, print_of_body .array List.not_mem_nil hbody,
      Body.print_array hwell (hbelow.mpr hclears)]

/-- A slot at the greatest index that is cut off again. -/
theorem prints_in_range_cut :
    let calls : List ElementsCall := [.set 4294967295 ⟨9⟩, .push ⟨8⟩, .setLength 3]
    let e := (Elements.ofList [⟨7⟩]).run calls
    let body : Body := ⟨.array e, ⟨[("name", ⟨0⟩)]⟩⟩
    let a' := stateAfter (ArenaM.allocBody body) (new {})
    ElementsCall.ClearsLast calls ∧ ArenaM.allocBody body (new {}) = .ok ⟨0⟩ a' ∧
      (∀ cell ∈ e.cells, cell.1 < e.length) ∧
      (∀ n ∈ Elements.computed e.length 0 e.cells, 0 ≤ n ∧ n ≤ maxArrayLength) ∧
      a'.display (.compound .array ⟨0⟩) = "[<dangling>, <2 empty items>, name: [Circular]]" ∧
      a'.display (.compound .array ⟨0⟩) =
        "[" ++ commaSeparated (Elements.walk (a'.printMember [⟨0⟩]) 0 e.positions ++
          body.properties.items (a'.printMember [⟨0⟩])) ++ "]" := by
  intro calls e body a'
  have hclears : ElementsCall.ClearsLast calls := by
    rw [show calls = [.set 4294967295 ⟨9⟩, .push ⟨8⟩] ++ [.setLength 3] from rfl,
      Elements.clearsLast_concat_iff]
    exact ⟨fun _ => ElementsCall.noConfusion, .inl ⟨3, rfl, by decide⟩⟩
  obtain ⟨hbelow, hcomputed, hdisplay⟩ := prints_in_range_iff [⟨7⟩] calls ⟨[("name", ⟨0⟩)]⟩
  exact ⟨hclears, rfl, hbelow.mpr hclears, hcomputed.mpr hclears, by decide +kernel,
    hdisplay hclears {} [] ⟨0⟩ a' rfl⟩

/-- A slot at the greatest index lies at the length. The index after it does not have 32 bits, and the
holes before the slot are printed once more behind it. -/
theorem prints_in_range_greatest :
    let e := (Elements.ofList []).run [.set 4294967295 ⟨9⟩]
    let a' := stateAfter (ArenaM.allocBody ⟨.array e, ∅⟩) (new {})
    ¬ (∀ cell ∈ e.cells, cell.1 < e.length) ∧
      4294967296 ∈ Elements.computed e.length 0 e.cells ∧ (maxArrayLength : Int) < 4294967296 ∧
      ArenaM.allocBody ⟨.array e, ∅⟩ (new {}) = .ok ⟨0⟩ a' ∧
      a'.display (.compound .array ⟨0⟩) =
        "[<4294967295 empty items>, <dangling>, <4294967295 empty items>]" := by
  intro e a'
  exact ⟨by decide, by decide, by decide, rfl, by decide +kernel⟩

end Arena

end SlotScript
