import SlotScript.Proofs.Arena.Frame
import SlotScript.Proofs.Arena.Nesting
import SlotScript.Proofs.Arena.Sharing

/-!
# After a collection

What a value refers to is among what the roots lead to (`Arena.Leads`) if the value is in a slot that they
lead to, or if its handle is a root. Whoever holds such a value does not notice a collection from these
roots: the value has the same text, and every property reads as before (`collect_unnoticed`). Where a handle
or a member leads nowhere, it leads nowhere afterwards. So this holds for every arena, closed or not.

The roots lead to the same in the arena that is left (`reached_collect_iff`), and a second collection from
them finds nothing to do (`collect_twice`).
-/

namespace SlotScript.Arena

variable {a : Arena} {roots : List Reference} {id owner member : SlotId} {v : Value} {body : Body}

/-! ### What stays readable -/

/-- A slot that is not live stays so. -/
theorem get?_collect_of_none (h : a.get? id = none) : (a.collect roots).2.get? id = none := by
  cases hslot : (a.collect roots).2.get? id with
  | none => rfl
  | some slot' =>
    obtain ⟨slot, hslot, -⟩ := get?_of_get?_collect hslot
    rw [h] at hslot
    cases hslot

/-- A slot that the roots lead to has the value that it had, if it had one. -/
theorem value_collect (h : a.isLive id → a.Reached roots (.slot id)) :
    (a.collect roots).2.value id = a.value id := by
  apply value_congr
  cases hslot : a.get? id with
  | none => rw [get?_collect_of_none hslot]
  | some slot =>
    rw [← hslot]
    exact (keeps_collect a (List.Subset.refl roots)).value_eq (h (isLive_of_get? hslot))

theorem body_collect (h : a.isLive id → a.Reached roots (.handle id)) :
    (a.collect roots).2.body id = a.body id := by
  apply body_congr
  cases hslot : a.get? id with
  | none => rw [get?_collect_of_none hslot]
  | some slot =>
    rw [(keeps_collect a (List.Subset.refl roots)).get?_eq (h (isLive_of_get? hslot)), hslot]

/-- What the value refers to is among what the roots lead to, if it is there at all. -/
def Leads (a : Arena) (roots : List Reference) (v : Value) : Prop :=
  ∀ owner, v.handle? = some owner → a.isLive owner → a.Reached roots (.handle owner)

theorem Reached.leads (h : a.Reached roots (.slot id)) (hvalue : a.value id = .ok v) :
    a.Leads roots v := by
  obtain ⟨slot, hslot, rfl⟩ := get?_of_value hvalue
  exact fun owner howner hlive => h.value hslot howner hlive

theorem leads_of_mem_roots (howner : v.handle? = some owner) (hroot : .handle owner ∈ roots) :
    a.Leads roots v := by
  intro other hother hlive
  obtain rfl := Option.some.inj (howner.symm.trans hother)
  exact .root hroot hlive

theorem Leads.body_collect (h : a.Leads roots v) (howner : v.handle? = some owner) :
    (a.collect roots).2.body owner = a.body owner := Arena.body_collect (h owner howner)

/-- A member of the container that the value refers to. -/
theorem Leads.reached_member (h : a.Leads roots v) (howner : v.handle? = some owner)
    (hbody : a.body owner = .ok body) (hmember : member ∈ body.members) (hlive : a.isLive member) :
    a.Reached roots (.slot member) := by
  obtain ⟨slot, hslot, hown⟩ := get?_of_body hbody
  exact (h owner howner (isLive_of_body hbody)).member hslot hown hmember hlive

theorem Leads.value_collect (h : a.Leads roots v) (howner : v.handle? = some owner)
    (hbody : a.body owner = .ok body) (hmember : member ∈ body.members) :
    (a.collect roots).2.value member = a.value member :=
  Arena.value_collect (h.reached_member howner hbody hmember)

/-! ### Text and properties -/

theorem Leads.print_collect (h : a.Leads roots v) (opened : List SlotId) :
    (a.collect roots).2.print opened v = a.print opened v := by
  induction opened, v using print.induct a with
  | case1 opened s => exact print_of_handle?_eq_none rfl _ _ _ _
  | case2 opened shape owner hmem => rw [print_of_mem shape hmem, print_of_mem shape hmem]
  | case3 opened shape owner hmem e hbody =>
    rw [print_of_error shape hmem hbody,
      print_of_error shape hmem ((h.body_collect rfl).trans hbody)]
  | case4 opened shape owner hmem body hbody ih =>
    rw [print_of_body shape hmem hbody, print_of_body shape hmem ((h.body_collect rfl).trans hbody)]
    apply Body.print_congr
    intro member hshown
    have hmember : member ∈ body.members := body.shown_subset_members hshown
    have hsame := h.value_collect rfl hbody hmember
    cases hvalue : a.value member with
    | error e => rw [printMember_of_error hvalue, printMember_of_error (hsame.trans hvalue)]
    | ok value =>
      rw [printMember_of_value hvalue, printMember_of_value (hsame.trans hvalue)]
      obtain ⟨slot, hslot, -⟩ := get?_of_value hvalue
      exact ih value ((h.reached_member rfl hbody hmember (isLive_of_get? hslot)).leads hvalue)
  | case5 opened v htext hcompound =>
    cases v with
    | compound shape owner => exact absurd rfl (hcompound shape owner)
    | _ => exact print_of_handle?_eq_none rfl _ _ _ _

theorem Leads.display_collect (h : a.Leads roots v) :
    (a.collect roots).2.display v = a.display v := by
  cases v with
  | text s => rfl
  | _ => exact h.print_collect []

theorem Leads.getProperty_collect (h : a.Leads roots v) (key : String) :
    (a.collect roots).2.getProperty v key = a.getProperty v key := by
  unfold Arena.getProperty
  cases howner : v.handle? with
  | none => rfl
  | some owner => simp only [h.body_collect howner]

/-- What a property reads as stands for the same value afterwards. -/
theorem Leads.resolve_collect (h : a.Leads roots v) {key : String} {outcome : Outcome}
    (hread : a.getProperty v key = .ok outcome) :
    (a.collect roots).2.resolve outcome = a.resolve outcome := by
  cases howner : v.handle? with
  | none =>
    simp only [Arena.getProperty, howner] at hread
    cases hread
    rfl
  | some owner =>
    cases hbody : a.body owner with
    | error e =>
      simp only [Arena.getProperty, howner, hbody] at hread
      cases hread
    | ok body =>
      rw [getProperty_of_body howner hbody] at hread
      cases hread
      cases hslot : body.property key with
      | fresh value => rfl
      | aliased slot =>
        exact h.value_collect howner hbody (Body.mem_members_of_slotAt? (Body.slotAt?_of_property hslot))
      | minted slot => exact absurd hslot (body.property_ne_minted key slot)

/-- **A collection goes unnoticed** by all that the roots lead to, in every arena. A value that is in a slot
that they lead to, or whose handle is a root, has the same text afterwards, and under each key it has the
same, which stands for the same value. -/
theorem collect_unnoticed (a : Arena) (roots : List Reference) {v : Value}
    (hv : (∃ id, a.Reached roots (.slot id) ∧ a.value id = .ok v) ∨
      ∃ owner, v.handle? = some owner ∧ .handle owner ∈ roots) :
    (a.collect roots).2.display v = a.display v ∧
      ∀ key, (a.collect roots).2.getProperty v key = a.getProperty v key ∧
        ∀ outcome, a.getProperty v key = .ok outcome →
          (a.collect roots).2.resolve outcome = a.resolve outcome := by
  have hleads : a.Leads roots v := by
    rcases hv with ⟨id, hid, hvalue⟩ | ⟨owner, howner, hroot⟩
    · exact hid.leads hvalue
    · exact leads_of_mem_roots howner hroot
  exact ⟨hleads.display_collect, fun key =>
    ⟨hleads.getProperty_collect key, fun outcome => hleads.resolve_collect⟩⟩

/-- An object whose own slot was overwritten, and which only a root refers to. It holds a slot that is not
live and an array whose body is missing. A slot that nothing refers to is freed. -/
theorem collect_unnoticed_malformed :
    let object : Body :=
      { content := .object, properties := ⟨[("own", ⟨0⟩), ("lost", ⟨7⟩), ("bare", ⟨1⟩)]⟩ }
    let a := (new { reclamation := .markSweep }).run
      [.allocBody object, .setValue ⟨0⟩ .null, .alloc (.compound .array ⟨1⟩), .alloc .null]
    let v : Value := .compound .object ⟨0⟩
    let roots : List Reference := [.slot ⟨7⟩, .handle ⟨0⟩]
    (v.handle? = some ⟨0⟩ ∧ .handle ⟨0⟩ ∈ roots) ∧
      ¬ (a.collect roots).2.isLive ⟨2⟩ ∧
      a.display v = "\x7bown: null, lost: <dangling>, bare: [object Array]\x7d" ∧
      (a.collect roots).2.display v = a.display v ∧
      ∀ key, (a.collect roots).2.getProperty v key = a.getProperty v key ∧
        ∀ outcome, a.getProperty v key = .ok outcome →
          (a.collect roots).2.resolve outcome = a.resolve outcome := by
  intro object a v roots
  have hroot : .handle ⟨0⟩ ∈ roots := by decide
  have hfreed : ¬ a.Reached roots (.slot ⟨2⟩) := fun h => absurd
    (h.of_closed (P := (· ∈ [.handle ⟨0⟩, .slot ⟨0⟩, .slot ⟨1⟩, .handle ⟨1⟩])) (by decide) (by decide))
    (by decide)
  exact ⟨⟨rfl, hroot⟩, mt (isLive_collect_iff rfl).mp hfreed, by decide +kernel,
    collect_unnoticed a roots (.inr ⟨⟨0⟩, rfl, hroot⟩)⟩

/-! ### Collecting again -/

/-- The roots lead to the same after a collection from them. -/
theorem reached_collect_iff {r : Reference} :
    (a.collect roots).2.Reached roots r ↔ a.Reached roots r := by
  refine ⟨fun h => ?_, (keeps_collect a (List.Subset.refl roots)).reached⟩
  have hlive {id : SlotId} (hid : (a.collect roots).2.isLive id) : a.isLive id := by
    obtain ⟨slot', hslot'⟩ := get?_of_isLive hid
    obtain ⟨slot, hslot, -⟩ := get?_of_get?_collect hslot'
    exact isLive_of_get? hslot
  induction h with
  | root hmem hid => exact .root hmem (hlive hid)
  | owner _ ih => exact ih.owner
  | value _ hslot' howner hid ih =>
    obtain ⟨slot, hslot, hvalue, -⟩ := get?_of_get?_collect hslot'
    exact ih.value hslot (hvalue ▸ howner) (hlive hid)
  | member _ hslot' hbody hmember hid ih =>
    obtain ⟨slot, hslot, -, hsame⟩ := get?_of_get?_collect hslot'
    exact ih.member hslot (hsame _ hbody) hmember (hlive hid)

/-- Where every live slot is met, and every body by a handle, a sweep only counts. -/
theorem sweep_eq_of_met {unseen : List Reference}
    (hmet : ∀ id slot, a.get? id = some slot →
      .slot id ∉ unseen ∧ (.handle id ∈ unseen → slot.body = none)) :
    a.freed unseen = [] ∧ a.sweep unseen = { a with collections := a.collections + 1 } := by
  have hfreed : a.freed unseen = [] := by
    apply List.eq_nil_iff_forall_not_mem.mpr
    intro id hmem
    obtain ⟨hlive, hunseen⟩ := mem_freed.mp hmem
    obtain ⟨slot, hslot⟩ := get?_of_isLive hlive
    exact (hmet id slot hslot).1 hunseen
  have hkeep {id : SlotId} {slot : Slot} (hslot : a.get? id = some slot) :
      sweepSlot unseen id slot = some slot := by
    obtain ⟨hid, hhandle⟩ := hmet id slot hslot
    rw [sweepSlot, if_neg hid]
    split
    · next hmem => rw [← hhandle hmem]
    · rfl
  have hslots : (a.sweep unseen).slots = a.slots := by
    apply Array.ext_getElem?
    intro i
    simp only [sweep, Array.getElem?_mapIdx]
    cases hentry : a.slots[i]? with
    | none => rfl
    | some entry =>
      cases entry with
      | none => rfl
      | some slot =>
        have hslot : a.get? ⟨i⟩ = some slot := by simp only [get?, hentry, Option.join_some]
        rw [Option.map_some, Option.bind_some, hkeep hslot]
  refine ⟨hfreed, ?_⟩
  calc a.sweep unseen
      = { a with
          slots := (a.sweep unseen).slots
          free := (a.freed unseen).reverse ++ a.free
          live := a.live - (a.freed unseen).length
          collections := a.collections + 1 } := rfl
    _ = { a with collections := a.collections + 1 } := by rw [hslots, hfreed]; rfl

theorem liveSlots_sweep (a : Arena) (unseen : List Reference) :
    (a.sweep unseen).liveSlots = a.liveSlots.filter (.slot · ∉ unseen) := by
  have hsize : (a.sweep unseen).slots.size = a.slots.size := Array.size_mapIdx
  unfold liveSlots
  rw [hsize, List.filter_filter]
  apply List.filter_congr
  intro id _
  simp only [isLive, get?_sweep]
  cases a.get? id with
  | none => simp
  | some slot =>
    rw [Option.bind_some, sweepSlot]
    split
    · next hmem => simp [hmem]
    · next hmem => split <;> simp [hmem]

/-- The marked slots are those that are left. -/
theorem marked_collect (hpolicy : a.config.reclamation = .markSweep) :
    (a.collect roots).1.marked = (a.collect roots).2.liveSlots.length := by
  have hsplit := List.length_eq_length_filter_add (l := a.liveSlots)
    (.slot · ∈ a.unreached a.allReferences roots)
  simp only [← decide_not] at hsplit
  rw [collect_of_markSweep hpolicy, liveSlots_sweep]
  simp only [freed]
  omega

/-- **Collecting twice is collecting once.** In every arena under mark-sweep, a second collection from the
same roots marks as many slots as the first and frees none, and it leaves the arena as it finds it, bodies
and free ids included. Only the collections are counted. -/
theorem collect_twice (hpolicy : a.config.reclamation = .markSweep) (roots : List Reference) :
    let first := a.collect roots
    first.2.collect roots =
      ({ marked := first.1.marked, freed := 0 },
        { first.2 with collections := first.2.collections + 1 }) := by
  intro first
  have hconfig : first.2.config = a.config := by
    simp only [first, collect_of_markSweep hpolicy]
    rfl
  have hmet (id : SlotId) (slot : Slot) (hslot : first.2.get? id = some slot) :
      .slot id ∉ first.2.unreached first.2.allReferences roots ∧
        (.handle id ∈ first.2.unreached first.2.allReferences roots → slot.body = none) := by
    have hid : a.Reached roots (.slot id) := (isLive_collect_iff hpolicy).mp (isLive_of_get? hslot)
    constructor
    · intro hmem
      exact (mem_unreached_iff.mp hmem).2 (reached_collect_iff.mpr hid)
    · -- A handle that is not reached now was not reached before, so the body is gone.
      intro hmem
      have hhandle : ¬ a.Reached roots (.handle id) := fun hreached =>
        (mem_unreached_iff.mp hmem).2 (reached_collect_iff.mpr hreached)
      rw [get?_collect_of_slot hpolicy hid hhandle] at hslot
      obtain ⟨old, -, rfl⟩ := Option.map_eq_some_iff.mp hslot
      rfl
  obtain ⟨hfreed, hsweep⟩ := sweep_eq_of_met hmet
  rw [collect_of_markSweep (hconfig ▸ hpolicy), hfreed, hsweep, marked_collect hpolicy]
  rfl

/-- The first collection frees an element and drops the body of its array, whose slot was overwritten. -/
theorem collect_twice_dropping :
    let a := (new { reclamation := .markSweep }).run
      [.build (.array [.fresh .null]), .setValue ⟨1⟩ (.boolean true)]
    let first := a.collect [.slot ⟨1⟩]
    a.config.reclamation = .markSweep ∧ ¬ first.2.isLive ⟨0⟩ ∧
      first.2.get? ⟨1⟩ = some { value := .boolean true } ∧
      first.2.collect [.slot ⟨1⟩] =
        ({ marked := first.1.marked, freed := 0 },
          { first.2 with collections := first.2.collections + 1 }) := by
  intro a first
  have hpolicy : a.config.reclamation = .markSweep := rfl
  have hroot : a.Reached [.slot ⟨1⟩] (.slot ⟨1⟩) := .root List.mem_cons_self rfl
  have honly (r : Reference) (h : a.Reached [.slot ⟨1⟩] r) : r = .slot ⟨1⟩ :=
    List.mem_singleton.mp (h.of_closed (P := (· ∈ [.slot ⟨1⟩])) (by decide) (by decide))
  have hfreed : ¬ a.Reached [.slot ⟨1⟩] (.slot ⟨0⟩) := fun h => absurd (honly _ h) (by decide)
  have hdropped : ¬ a.Reached [.slot ⟨1⟩] (.handle ⟨1⟩) := fun h => absurd (honly _ h) (by decide)
  exact ⟨hpolicy, mt (isLive_collect_iff hpolicy).mp hfreed,
    get?_collect_of_slot hpolicy hroot hdropped, collect_twice hpolicy _⟩

end SlotScript.Arena
