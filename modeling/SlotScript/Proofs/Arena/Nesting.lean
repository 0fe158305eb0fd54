import SlotScript.Arena.Display
import SlotScript.Proofs.Arena.Reachability
import SlotScript.Proofs.Numeral.RoundTrip
import Mathlib.Logic.Relation

/-!
# How printing goes down into containers

`Arena.Descends` is one step down: a container that is not open yet is opened, and the value in one of the
member slots that its body shows is printed inside it. Steps cannot go on for ever, whatever the arena
refers to (`wellFounded_descends`), and the containers open at a moment are distinct and own bodies
(`Arena.Nested`), so they are no more than the bodies there are.

* `print_eq_circular_iff`: a container is printed as `[Circular]` exactly inside itself. No other text of a
  container looks like that.
* `print_congr_opened`: which containers are open matters only as far as they are shown again. So a
  container that shows none of those around it has everywhere the text that it has by itself.
-/

namespace SlotScript

/-! ### What the text of a body shows -/

/-- The member slots that the text of a body shows: none of a function, all of other bodies. -/
def Body.shown (b : Body) : List SlotId :=
  match b.content with
  | .function _ _ _ => []
  | _ => b.members

theorem Body.shown_subset_members (b : Body) : b.shown ⊆ b.members := by
  obtain ⟨content, properties⟩ := b
  cases content with
  | function parameters code scope => exact List.nil_subset _
  | _ => exact List.Subset.refl _

section

variable {print print' : SlotId → String}

theorem Elements.items_congr {cells : List (Nat × SlotId)}
    (h : ∀ slot ∈ cells.map (·.2), print slot = print' slot) (length start : Nat) :
    items print length start cells = items print' length start cells := by
  induction cells generalizing start with
  | nil => rfl
  | cons cell rest ih =>
    obtain ⟨index, slot⟩ := cell
    obtain ⟨hslot, hrest⟩ := List.forall_mem_cons.mp h
    rw [items, items, hslot, ih hrest]

theorem NameTable.items_congr {t : NameTable} (h : ∀ slot ∈ t.slots, print slot = print' slot) :
    t.items print = t.items print' := by
  apply List.map_congr_left
  intro entry hentry
  exact congrArg (entry.1 ++ ": " ++ ·) (h entry.2 (List.mem_map_of_mem hentry))

/-- The text of a body depends on the texts of the slots that it shows. -/
theorem Body.print_congr {b : Body} (h : ∀ slot ∈ b.shown, print slot = print' slot) :
    b.print print = b.print print' := by
  obtain ⟨content, properties⟩ := b
  cases content with
  | object =>
    have hproperties := NameTable.items_congr h
    simp only [Body.print, hproperties]
  | array elements =>
    have hmembers : ∀ slot ∈ elements.slots ++ properties.slots, print slot = print' slot := h
    obtain ⟨helements, hproperties⟩ := List.forall_mem_append.mp hmembers
    simp only [Body.print, NameTable.items_congr hproperties,
      Elements.items_congr helements elements.length 0]
  | function parameters code scope => rfl

end

/-! ### The mark of a container inside itself

An array is written in the same brackets as the mark. What stands between them is the mark's word only if
an item is, and no item is. -/

/-- The word denotes no number, and the text of a number denotes it. -/
theorem Double.toText_ne_circular (x : Double) : x.toText ≠ "Circular" := by
  intro h
  have hword : Double.ofText "Circular" = nan := by decide +kernel
  have hread := x.ofText_toText
  rw [h, hword] at hread
  split at hread
  · exact zero_ne_nan hread.symm
  · subst hread
    revert h
    decide

theorem mem_of_commaSeparated_eq {items : List String} (h : commaSeparated items = "Circular") :
    "Circular" ∈ items := by
  rcases items with _ | ⟨first, _ | ⟨second, rest⟩⟩
  · exact absurd h (by decide)
  · rw [commaSeparated, String.intercalate_singleton] at h
    exact List.mem_singleton.mpr h.symm
  · have hcomma : ',' ∈ (commaSeparated (first :: second :: rest)).toList := by
      rw [commaSeparated, String.intercalate_cons_cons]
      simp
    rw [h] at hcomma
    exact absurd hcomma (by decide)

theorem NameTable.ne_circular_of_mem_items {t : NameTable} {print : SlotId → String} {item : String}
    (h : item ∈ t.items print) : item ≠ "Circular" := by
  rintro rfl
  obtain ⟨⟨name, slot⟩, -, hentry⟩ := List.mem_map.mp h
  have hcolon : ':' ∈ (name ++ ": " ++ print slot).toList := by simp
  rw [show name ++ ": " ++ print slot = "Circular" from hentry] at hcolon
  exact absurd hcolon (by decide)

theorem Elements.ne_circular_of_mem_items {print : SlotId → String}
    (hprint : ∀ slot, print slot ≠ "Circular") {length start : Nat} {cells : List (Nat × SlotId)}
    {item : String} (h : item ∈ items print length start cells) : item ≠ "Circular" := by
  have hholes {start stop : Nat} (h : item ∈ if start < stop then [holes (stop - start)] else []) :
      item ≠ "Circular" := by
    split at h
    · obtain rfl := List.mem_singleton.mp h
      intro heq
      have hhead := congrArg (·.toList.head?) heq
      unfold holes at hhead
      split at hhead <;> simp at hhead
    · cases h
  induction cells generalizing start with
  | nil => exact hholes h
  | cons cell rest ih =>
    obtain ⟨index, slot⟩ := cell
    rw [items] at h
    rcases List.mem_append.mp h with hbefore | hrest
    · exact hholes hbefore
    · rcases List.mem_cons.mp hrest with rfl | hrest
      · exact hprint slot
      · exact ih hrest

theorem Body.print_ne_circular (b : Body) (print : SlotId → String) : b.print print ≠ "Circular" := by
  intro h
  have hhead := congrArg (·.toList.head?) h
  unfold Body.print at hhead
  split at hhead <;> simp at hhead

/-- Where no member has the text between the brackets of the mark, the body does not have that of the
mark. -/
theorem Body.print_ne_mark {print : SlotId → String} (h : ∀ slot, print slot ≠ "Circular") (b : Body) :
    b.print print ≠ "[Circular]" := by
  intro hmark
  unfold Body.print at hmark
  split at hmark
  · have hhead := congrArg (·.toList.head?) hmark
    simp at hhead
  · next elements _ =>
    have hitems : commaSeparated (Elements.items print elements.length 0 elements.cells ++
        b.properties.items print) = "Circular" :=
      (String.append_right_inj "[").mp ((String.append_left_inj "]").mp hmark)
    rcases List.mem_append.mp (mem_of_commaSeparated_eq hitems) with hmem | hmem
    · exact Elements.ne_circular_of_mem_items h hmem rfl
    · exact NameTable.ne_circular_of_mem_items hmem rfl
  · have hhead := congrArg (·.toList.head?) hmark
    simp at hhead

namespace Arena

variable {a : Arena} {opened opened' : List SlotId} {v w : Value} {owner : SlotId} {body : Body}

/-! ### The text of a value, form by form -/

/-- The text of a member slot inside the containers owned by `opened`. -/
def printMember (a : Arena) (opened : List SlotId) (member : SlotId) : String :=
  match a.value member with
  | .ok value => a.print opened value
  | .error _ => "<dangling>"

theorem printMember_of_value {member : SlotId} (h : a.value member = .ok v) (opened : List SlotId) :
    a.printMember opened member = a.print opened v := by
  rw [printMember, h]

theorem printMember_of_error {member : SlotId} {e : ArenaError} (h : a.value member = .error e)
    (opened : List SlotId) : a.printMember opened member = "<dangling>" := by
  rw [printMember, h]

/-- The text of a primitive value does not depend on the arena. -/
theorem print_of_handle?_eq_none (h : v.handle? = none) (a b : Arena) (opened opened' : List SlotId) :
    a.print opened v = b.print opened' v := by
  cases v with
  | compound shape owner => cases h
  | _ => simp only [print]

theorem print_of_mem (shape : Shape) (h : owner ∈ opened) :
    a.print opened (.compound shape owner) = "[Circular]" := by
  rw [print, dif_pos h]

theorem print_of_error {e : ArenaError} (shape : Shape) (h : owner ∉ opened)
    (hbody : a.body owner = .error e) :
    a.print opened (.compound shape owner) = (Value.compound shape owner).toText := by
  rw [print, dif_neg h]
  split
  · rfl
  · next hok => rw [hbody] at hok; cases hok

theorem print_of_body (shape : Shape) (h : owner ∉ opened) (hbody : a.body owner = .ok body) :
    a.print opened (.compound shape owner) = body.print (a.printMember (owner :: opened)) := by
  rw [print, dif_neg h]
  split
  · next herror => rw [hbody] at herror; cases herror
  · next hok =>
    rw [hbody] at hok
    obtain rfl := Except.ok.inj hok
    rfl

theorem print_ne_circular (a : Arena) (opened : List SlotId) (v : Value) :
    a.print opened v ≠ "Circular" := by
  cases v with
  | text s =>
    intro h
    have hhead := congrArg (·.toList.head?) h
    simp [print, Text.quote, Text.between] at hhead
  | compound shape owner =>
    by_cases hmem : owner ∈ opened
    · rw [print_of_mem shape hmem]
      decide
    · cases hbody : a.body owner with
      | error e =>
        rw [print_of_error shape hmem hbody]
        cases shape <;> simp [Value.toText]
      | ok body =>
        rw [print_of_body shape hmem hbody]
        exact body.print_ne_circular _
  | number x => simpa only [print, Value.toText] using x.toText_ne_circular
  | boolean b => cases b <;> simp [print, Value.toText]
  | _ => simp [print, Value.toText]

theorem printMember_ne_circular (a : Arena) (opened : List SlotId) (member : SlotId) :
    a.printMember opened member ≠ "Circular" := by
  unfold printMember
  split
  · exact a.print_ne_circular opened _
  · decide

/-- **A container is printed as `[Circular]` exactly inside itself.** -/
theorem print_eq_circular_iff (a : Arena) (opened : List SlotId) (shape : Shape) (owner : SlotId) :
    a.print opened (.compound shape owner) = "[Circular]" ↔ owner ∈ opened := by
  refine ⟨fun h => ?_, print_of_mem shape⟩
  by_contra hmem
  cases hbody : a.body owner with
  | error e =>
    rw [print_of_error shape hmem hbody] at h
    revert h
    cases shape <;> simp [Value.toText]
  | ok body =>
    rw [print_of_body shape hmem hbody] at h
    exact body.print_ne_mark (a.printMember_ne_circular _) h

/-! ### Going down -/

/-- Printing a value inside some containers goes down to another value inside one container more. -/
inductive Descends (a : Arena) : List SlotId × Value → List SlotId × Value → Prop where
  | member {opened shape owner body member value} : owner ∉ opened → a.body owner = .ok body →
      member ∈ body.shown → a.value member = .ok value →
      Descends a (opened, .compound shape owner) (owner :: opened, value)

/-- **Printing comes to an end.** Each step down leaves fewer containers to open. -/
theorem wellFounded_descends (a : Arena) : WellFounded fun inner outer => a.Descends outer inner := by
  refine Subrelation.wf (r := InvImage (· < ·) fun call => (a.unopened call.1).length) ?_
    (InvImage.wf _ Nat.lt_wfRel.wf)
  rintro inner outer ⟨hclosed, hbody, -, -⟩
  exact length_unopened_lt hclosed hbody

/-- Containers that can be open together: they are distinct, and own bodies. -/
structure Nested (a : Arena) (opened : List SlotId) : Prop where
  nodup : opened.Nodup
  body : ∀ id ∈ opened, ∃ body, a.body id = .ok body

theorem nested_nil (a : Arena) : a.Nested [] := ⟨List.nodup_nil, List.forall_mem_nil _⟩

theorem Nested.cons (h : a.Nested opened) (hclosed : owner ∉ opened) (hbody : a.body owner = .ok body) :
    a.Nested (owner :: opened) :=
  ⟨List.nodup_cons.mpr ⟨hclosed, h.nodup⟩, List.forall_mem_cons.mpr ⟨⟨body, hbody⟩, h.body⟩⟩

/-- There are no more containers open than slots that own a body. -/
theorem Nested.length_le (h : a.Nested opened) :
    opened.length ≤ {id | ∃ body, a.body id = .ok body}.ncard := by
  rw [← ncard_setOf_mem h.nodup]
  refine Set.ncard_le_ncard h.body ((List.finite_toSet a.liveSlots).subset ?_)
  rintro id ⟨body, hbody⟩
  exact mem_liveSlots.mpr (isLive_of_body hbody)

/-- Going down keeps the open containers apart. -/
theorem Nested.descends {call call' : List SlotId × Value} (h : a.Nested call.1)
    (hdescends : a.Descends call call') : a.Nested call'.1 := by
  cases hdescends with
  | member hclosed hbody _ _ => exact h.cons hclosed hbody

/-- The containers that are open when printing has gone down from a value to another. -/
theorem nested_of_descends (h : Relation.ReflTransGen a.Descends ([], v) (opened, w)) :
    a.Nested opened := by
  suffices hnested : ∀ call, Relation.ReflTransGen a.Descends ([], v) call → a.Nested call.1 from
    hnested _ h
  intro call hcall
  induction hcall with
  | refl => exact a.nested_nil
  | tail _ hstep ih => exact ih.descends hstep

/-! ### Containers shown again -/

/-- The text of the value shows the container that the slot owns, at some depth. -/
inductive Shows (a : Arena) : Value → SlotId → Prop where
  | self {shape owner} : Shows a (.compound shape owner) owner
  | member {shape owner body member value id} : a.body owner = .ok body → member ∈ body.shown →
      a.value member = .ok value → Shows a value id → Shows a (.compound shape owner) id

/-- Which containers are open matters only for those that the value shows. -/
theorem print_congr_opened (h : ∀ id, a.Shows v id → (id ∈ opened ↔ id ∈ opened')) :
    a.print opened v = a.print opened' v := by
  induction opened, v using print.induct a generalizing opened' with
  | case1 opened s => exact print_of_handle?_eq_none rfl a a _ _
  | case2 opened shape owner hmem =>
    rw [print_of_mem shape hmem, print_of_mem shape ((h owner .self).mp hmem)]
  | case3 opened shape owner hmem e hbody =>
    rw [print_of_error shape hmem hbody, print_of_error shape (mt (h owner .self).mpr hmem) hbody]
  | case4 opened shape owner hmem body hbody ih =>
    rw [print_of_body shape hmem hbody, print_of_body shape (mt (h owner .self).mpr hmem) hbody]
    apply Body.print_congr
    intro member hmember
    cases hvalue : a.value member with
    | error e => rw [printMember_of_error hvalue, printMember_of_error hvalue]
    | ok value =>
      rw [printMember_of_value hvalue, printMember_of_value hvalue]
      apply ih
      intro id hid
      rw [List.mem_cons, List.mem_cons, h id (.member hbody hmember hvalue hid)]
  | case5 opened v htext hcompound =>
    apply print_of_handle?_eq_none
    cases v with
    | compound shape owner => exact absurd rfl (hcompound shape owner)
    | _ => rfl

/-! ### Displaying -/

theorem display_of_text?_eq_none (h : v.text? = none) : a.display v = a.print [] v := by
  cases v with
  | text s => cases h
  | _ => rfl

/-- **Displaying a value comes to an end, and shows a circle only where there is one.** Whatever the arena
refers to, printing cannot go down for ever, and at every moment the open containers are distinct and own
bodies, so that there are never more of them than bodies. A container is printed as `[Circular]` exactly
if it is open already, and from its body otherwise, however often it was printed before; unless it shows one
of those around it, its text is the one that it has by itself. -/
theorem display_nests (a : Arena) :
    (∀ v : Value, v.text? = none → a.display v = a.print [] v) ∧
    (WellFounded fun inner outer => a.Descends outer inner) ∧
    ∀ v opened w, Relation.ReflTransGen a.Descends ([], v) (opened, w) →
      a.Nested opened ∧ opened.length ≤ {id | ∃ body, a.body id = .ok body}.ncard ∧
      ∀ shape owner, w = .compound shape owner →
        (a.print opened w = "[Circular]" ↔ owner ∈ opened) ∧
        (∀ body, owner ∉ opened → a.body owner = .ok body →
          a.Nested (owner :: opened) ∧
          (owner :: opened).length ≤ {id | ∃ body, a.body id = .ok body}.ncard ∧
          ∀ text : SlotId → String,
            (∀ member ∈ body.shown, text member = a.printMember (owner :: opened) member) →
              a.print opened w = body.print text) ∧
        ((∀ id ∈ opened, ¬ a.Shows w id) → a.print opened w = a.display w) := by
  refine ⟨fun v => display_of_text?_eq_none, wellFounded_descends a, fun v opened w hdescends => ?_⟩
  have hnested : a.Nested opened := nested_of_descends hdescends
  refine ⟨hnested, hnested.length_le, ?_⟩
  rintro shape owner rfl
  refine ⟨a.print_eq_circular_iff opened shape owner, fun body hclosed hbody => ?_, fun hshows => ?_⟩
  · have hinner : a.Nested (owner :: opened) := hnested.cons hclosed hbody
    refine ⟨hinner, hinner.length_le, fun text htext => ?_⟩
    rw [print_of_body shape hclosed hbody, Body.print_congr htext]
  · rw [display_of_text?_eq_none rfl]
    apply print_congr_opened
    intro id hid
    exact ⟨fun hmem => absurd hid (hshows id hmem), fun hmem => absurd hmem List.not_mem_nil⟩

/-- An object that holds itself, twice the same array, and a slot that is not live; the array holds a
function without a body. -/
theorem display_nests_shared :
    let list : Body := { content := .array { cells := [(0, ⟨2⟩)], length := 1 } }
    let object : Body :=
      { content := .object,
        properties := ⟨[("self", ⟨0⟩), ("left", ⟨1⟩), ("right", ⟨1⟩), ("lost", ⟨7⟩)]⟩ }
    let a := (new {}).run [.allocBody object, .allocBody list, .alloc (.compound .function ⟨5⟩)]
    let v : Value := .compound .object ⟨0⟩
    let shared : Value := .compound .array ⟨1⟩
    a.display v =
        "\x7bself: [Circular], left: [[object Function]], right: [[object Function]], lost: <dangling>\x7d" ∧
      a.Descends ([], v) ([⟨0⟩], v) ∧ a.print [⟨0⟩] v = "[Circular]" ∧
      a.Descends ([], v) ([⟨0⟩], shared) ∧ a.Nested [⟨1⟩, ⟨0⟩] ∧
      a.print [⟨0⟩] shared = a.display shared := by
  intro list object a v shared
  have hobject : a.body ⟨0⟩ = .ok object := rfl
  have hlist : a.body ⟨1⟩ = .ok list := rfl
  have hv : a.value ⟨0⟩ = .ok v := rfl
  have hvalue : a.value ⟨1⟩ = .ok shared := rfl
  have hfunction : a.value ⟨2⟩ = .ok (.compound .function ⟨5⟩) := rfl
  have hbare : a.body ⟨5⟩ = .error (.danglingSlot ⟨5⟩) := rfl
  have hdisplay : a.display v =
      "\x7bself: [Circular], left: [[object Function]], right: [[object Function]], lost: <dangling>\x7d" := by
    decide +kernel
  -- What is left needs only these facts about the arena, not the calls that led to it.
  clear_value a
  have hself : a.Descends ([], v) ([⟨0⟩], v) :=
    .member List.not_mem_nil hobject (by decide : (⟨0⟩ : SlotId) ∈ object.shown) hv
  have hleft : a.Descends ([], v) ([⟨0⟩], shared) :=
    .member List.not_mem_nil hobject (by decide : (⟨1⟩ : SlotId) ∈ object.shown) hvalue
  have hshows : ∀ id ∈ [(⟨0⟩ : SlotId)], ¬ a.Shows shared id := by
    intro id hid hshows
    obtain rfl := List.mem_singleton.mp hid
    cases (show a.Shows (.compound .array ⟨1⟩) ⟨0⟩ from hshows) with
    | member hbody hmember hinside hinner =>
      cases hlist.symm.trans hbody
      obtain rfl := List.mem_singleton.mp hmember
      cases hfunction.symm.trans hinside
      cases hinner with
      | member hnone _ _ _ => cases hbare.symm.trans hnone
  obtain ⟨-, -, hnests⟩ := display_nests a
  obtain ⟨-, -, hself'⟩ := hnests v _ v (.single hself)
  obtain ⟨-, -, hshared⟩ := hnests v _ shared (.single hleft)
  refine ⟨hdisplay, hself, ?_, hleft, ?_, ?_⟩
  · exact (hself' .object ⟨0⟩ rfl).1.mpr (List.mem_singleton_self _)
  · exact ((hshared .array ⟨1⟩ rfl).2.1 list (by decide) hlist).1
  · exact (hshared .array ⟨1⟩ rfl).2.2 hshows

end Arena

end SlotScript
