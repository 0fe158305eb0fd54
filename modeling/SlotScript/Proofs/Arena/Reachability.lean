import SlotScript.Proofs.Arena.Accounting
import Mathlib.Data.Set.Card

/-!
# What a collection keeps

`Arena.Reached` says what roots lead to, by rules. A reference to a slot leads to the handle in its
value; a handle leads to its slot and to the members of the body there. Only live slots count, so an
arena may hold handles and members that lead nowhere.

* `mem_unreached_iff`: the search of a collection finds exactly the reached references. The invariant
  of its loop has two halves: what was taken off the list is reached (`of_notMem_unreached`), and what
  it refers to was taken off or is pending (`references_notMem_unreached`).
* `Arena.Reclaimed` is the effect of a collection told by `Reached` alone, and
  `collect_reclaims` proves it for the arenas that runs lead to.
-/

namespace SlotScript

/-- The slot that a reference names. -/
def Reference.id : Reference → SlotId
  | slot id | handle id => id

namespace Arena

/-- What `roots` lead to. -/
inductive Reached (a : Arena) (roots : List Reference) : Reference → Prop where
  | root {r} : r ∈ roots → a.isLive r.id → a.Reached roots r
  | owner {id} : a.Reached roots (.handle id) → a.Reached roots (.slot id)
  | value {id slot owner} : a.Reached roots (.slot id) → a.get? id = some slot →
      slot.value.handle? = some owner → a.isLive owner → a.Reached roots (.handle owner)
  | member {id slot body member} : a.Reached roots (.handle id) → a.get? id = some slot →
      slot.body = some body → member ∈ body.members → a.isLive member →
      a.Reached roots (.slot member)

theorem Reached.isLive {a : Arena} {roots : List Reference} {r : Reference}
    (h : a.Reached roots r) : a.isLive r.id := by
  induction h with
  | root _ hlive => exact hlive
  | owner _ ih => exact ih
  | value _ _ _ hlive _ => exact hlive
  | member _ _ _ _ hlive _ => exact hlive

theorem Reached.get? {a : Arena} {roots : List Reference} {r : Reference}
    (h : a.Reached roots r) : ∃ slot, a.get? r.id = some slot :=
  Option.isSome_iff_exists.mp h.isLive

theorem mem_references_slot {a : Arena} {id : SlotId} {r : Reference} :
    r ∈ a.references (.slot id) ↔
      ∃ slot owner, a.get? id = some slot ∧ slot.value.handle? = some owner ∧ r = .handle owner := by
  simp only [references]
  cases hslot : a.get? id with
  | none => simp
  | some slot => cases hhandle : slot.value.handle? <;> simp [hhandle, eq_comm]

theorem mem_references_handle {a : Arena} {id : SlotId} {r : Reference} :
    r ∈ a.references (.handle id) ↔ r = .slot id ∨
      ∃ slot body member, a.get? id = some slot ∧ slot.body = some body ∧
        member ∈ body.members ∧ r = .slot member := by
  simp only [references]
  cases hslot : a.get? id with
  | none => simp
  | some slot => cases hbody : slot.body <;> simp [hbody, eq_comm]

/-- The rules, as the search applies them. -/
theorem Reached.step {a : Arena} {roots : List Reference} {r r' : Reference}
    (h : a.Reached roots r) (hr : r' ∈ a.references r) (hlive : a.isLive r'.id) :
    a.Reached roots r' := by
  cases r with
  | slot id =>
    obtain ⟨slot, owner, hslot, howner, rfl⟩ := mem_references_slot.mp hr
    exact h.value hslot howner hlive
  | handle id =>
    rcases mem_references_handle.mp hr with rfl | ⟨slot, body, member, hslot, hbody, hmember, rfl⟩
    · exact h.owner
    · exact h.member hslot hbody hmember hlive

/-- The reached references are among any that hold the live roots and are closed under following
references. -/
theorem Reached.of_closed {a : Arena} {roots : List Reference} {P : Reference → Prop}
    (hroots : ∀ r ∈ roots, a.isLive r.id → P r)
    (hstep : ∀ r, P r → a.isLive r.id → ∀ r' ∈ a.references r, a.isLive r'.id → P r')
    {r : Reference} (h : a.Reached roots r) : P r := by
  induction h with
  | root hr hlive => exact hroots _ hr hlive
  | owner h ih => exact hstep _ ih h.isLive _ (mem_references_handle.mpr (.inl rfl)) h.isLive
  | value h hslot howner hlive ih =>
    exact hstep _ ih h.isLive _ (mem_references_slot.mpr ⟨_, _, hslot, howner, rfl⟩) hlive
  | member h hslot hbody hmember hlive ih =>
    exact hstep _ ih h.isLive _
      (mem_references_handle.mpr (.inr ⟨_, _, _, hslot, hbody, hmember, rfl⟩)) hlive

theorem Reached.mono {a : Arena} {roots roots' : List Reference} (hsub : roots ⊆ roots')
    {r : Reference} (h : a.Reached roots r) : a.Reached roots' r :=
  h.of_closed (fun _ hr hlive => .root (hsub hr) hlive) fun _ hr _ _ hr' hlive => hr.step hr' hlive

/-- Without roots nothing is reached. -/
theorem not_reached_nil (a : Arena) (r : Reference) : ¬ a.Reached [] r := fun h =>
  h.of_closed (P := fun _ => False) (List.forall_mem_nil _) fun _ hfalse _ _ _ _ => hfalse

/-! ### The search -/

theorem mem_allReferences {a : Arena} {r : Reference} :
    r ∈ a.allReferences ↔ a.isLive r.id := by
  simp only [allReferences, List.mem_flatMap, mem_liveSlots, List.mem_cons, List.not_mem_nil,
    or_false]
  constructor
  · rintro ⟨id, hlive, rfl | rfl⟩ <;> exact hlive
  · intro hlive
    cases r with
    | slot id => exact ⟨id, hlive, .inl rfl⟩
    | handle id => exact ⟨id, hlive, .inr rfl⟩

theorem nodup_allReferences (a : Arena) : a.allReferences.Nodup := by
  refine List.nodup_flatMap.mpr ⟨fun id _ => by simp, ?_⟩
  refine a.nodup_liveSlots.imp fun hne r hr hr' => ?_
  simp only [List.mem_cons, List.not_mem_nil, or_false] at hr hr'
  rcases hr with rfl | rfl <;> simp_all

/-- The search only takes off the list. -/
theorem unreached_subset (a : Arena) (unseen pending : List Reference) :
    a.unreached unseen pending ⊆ unseen := by
  fun_induction unreached a unseen pending with
  | case1 => exact List.Subset.refl _
  | case2 unseen r pending _ ih => exact fun _ h => List.mem_of_mem_erase (ih h)
  | case3 unseen r pending _ ih => exact ih

/-- What the search takes off the list has every property that the pending references have and that
passes along references. -/
theorem of_notMem_unreached {a : Arena} {P : Reference → Prop}
    (hstep : ∀ r, P r → ∀ r' ∈ a.references r, a.isLive r'.id → P r')
    {unseen pending : List Reference} (hunseen : ∀ r ∈ unseen, a.isLive r.id)
    (hpending : ∀ r ∈ pending, a.isLive r.id → P r) {r : Reference} (hr : r ∈ unseen)
    (hleft : r ∉ a.unreached unseen pending) : P r := by
  fun_induction unreached a unseen pending with
  | case1 => exact absurd hr hleft
  | case2 unseen first pending hfirst ih =>
    have hP : P first := hpending first List.mem_cons_self (hunseen first hfirst)
    refine if heq : r = first then heq ▸ hP else
      ih (fun s hs => hunseen s (List.mem_of_mem_erase hs)) (fun s hs hlive => ?_)
        ((List.mem_erase_of_ne heq).mpr hr) hleft
    rcases List.mem_append.mp hs with hs | hs
    · exact hstep first hP s hs hlive
    · exact hpending s (List.mem_cons_of_mem _ hs) hlive
  | case3 unseen first pending _ ih =>
    exact ih hunseen (fun s hs => hpending s (List.mem_cons_of_mem _ hs)) hr hleft

/-- When the search stops, nothing that was taken off the list refers to anything still on it, and no
root is on it. -/
theorem references_notMem_unreached {a : Arena} {unseen pending : List Reference}
    (hnodup : unseen.Nodup)
    (hseen : ∀ r, r ∉ unseen → a.isLive r.id → ∀ r' ∈ a.references r, r' ∈ unseen → r' ∈ pending) :
    (∀ r ∈ pending, r ∉ a.unreached unseen pending) ∧
      ∀ r, r ∉ a.unreached unseen pending → a.isLive r.id →
        ∀ r' ∈ a.references r, r' ∉ a.unreached unseen pending := by
  fun_induction unreached a unseen pending with
  | case1 unseen =>
    constructor
    · intro r hr
      exact absurd hr List.not_mem_nil
    · intro r hr hlive r' hr' hmem
      exact absurd (hseen r hr hlive r' hr' hmem) List.not_mem_nil
  | case2 unseen first pending hfirst ih =>
    obtain ⟨hpending, hclosed⟩ := ih (hnodup.erase first) fun r hr hlive r' hr' hmem => by
      rw [List.mem_append]
      by_cases heq : r = first
      · exact .inl (heq ▸ hr')
      · have hold : r ∉ unseen := fun h => hr ((List.mem_erase_of_ne heq).mpr h)
        rcases List.mem_cons.mp (hseen r hold hlive r' hr' (List.mem_of_mem_erase hmem)) with
          rfl | hlater
        · exact absurd hmem hnodup.not_mem_erase
        · exact .inr hlater
    refine ⟨?_, hclosed⟩
    intro r hr
    rcases List.mem_cons.mp hr with rfl | hr
    · exact fun h => hnodup.not_mem_erase (unreached_subset _ _ _ h)
    · exact hpending r (List.mem_append_right _ hr)
  | case3 unseen first pending hfirst ih =>
    obtain ⟨hpending, hclosed⟩ := ih hnodup fun r hr hlive r' hr' hmem => by
      rcases List.mem_cons.mp (hseen r hr hlive r' hr' hmem) with rfl | hlater
      · exact absurd hmem hfirst
      · exact hlater
    refine ⟨?_, hclosed⟩
    intro r hr
    rcases List.mem_cons.mp hr with rfl | hr
    · exact fun h => hfirst (unreached_subset _ _ _ h)
    · exact hpending r hr

/-- **The search is exact.** It leaves the live references that the roots do not lead to. -/
theorem mem_unreached_iff {a : Arena} {roots : List Reference} {r : Reference} :
    r ∈ a.unreached a.allReferences roots ↔ a.isLive r.id ∧ ¬ a.Reached roots r := by
  have hclosed : (∀ r ∈ roots, r ∉ a.unreached a.allReferences roots) ∧
      ∀ r, r ∉ a.unreached a.allReferences roots → a.isLive r.id →
        ∀ r' ∈ a.references r, r' ∉ a.unreached a.allReferences roots :=
    references_notMem_unreached a.nodup_allReferences
      fun r hr hlive => absurd (mem_allReferences.mpr hlive) hr
  constructor
  · intro hr
    constructor
    · exact mem_allReferences.mp (unreached_subset _ _ _ hr)
    · intro hreached
      exact hreached.of_closed (P := (· ∉ a.unreached a.allReferences roots))
        (fun s hs _ => hclosed.1 s hs) (fun s hs hlive s' hs' _ => hclosed.2 s hs hlive s' hs') hr
  · rintro ⟨hlive, hreached⟩
    by_contra hleft
    exact hreached (of_notMem_unreached (P := a.Reached roots) (fun s hs s' => hs.step)
      (fun s => mem_allReferences.mp) (fun s => .root) (mem_allReferences.mpr hlive) hleft)

/-! ### The effect of a collection -/

section Collect

variable {a : Arena} {roots : List Reference} {id : SlotId}

theorem get?_collect (hpolicy : a.config.reclamation = .markSweep) :
    (a.collect roots).2.get? id =
      (a.get? id).bind (sweepSlot (a.unreached a.allReferences roots) id) := by
  rw [collect_of_markSweep hpolicy]
  exact get?_sweep a _ id

/-- A slot that a reached handle names stays as it is, body included. -/
theorem get?_collect_of_handle (hpolicy : a.config.reclamation = .markSweep)
    (h : a.Reached roots (.handle id)) : (a.collect roots).2.get? id = a.get? id := by
  obtain ⟨slot, hslot⟩ := h.get?
  rw [get?_collect hpolicy, show a.get? id = some slot from hslot, Option.bind_some, sweepSlot,
    if_neg fun hmem => (mem_unreached_iff.mp hmem).2 h.owner,
    if_neg fun hmem => (mem_unreached_iff.mp hmem).2 h]

/-- A slot that is reached, but not through a handle, keeps its value and loses its body. -/
theorem get?_collect_of_slot (hpolicy : a.config.reclamation = .markSweep)
    (h : a.Reached roots (.slot id)) (hhandle : ¬ a.Reached roots (.handle id)) :
    (a.collect roots).2.get? id = (a.get? id).map ({ · with body := none }) := by
  obtain ⟨slot, hslot⟩ := h.get?
  have hid : a.isLive id := h.isLive
  rw [get?_collect hpolicy, show a.get? id = some slot from hslot, Option.bind_some, sweepSlot,
    if_neg fun hmem => (mem_unreached_iff.mp hmem).2 h,
    if_pos (mem_unreached_iff.mpr ⟨hid, hhandle⟩), Option.map_some]

theorem get?_collect_of_not_reached (hpolicy : a.config.reclamation = .markSweep)
    (h : ¬ a.Reached roots (.slot id)) : (a.collect roots).2.get? id = none := by
  rw [get?_collect hpolicy]
  cases hslot : a.get? id with
  | none => rfl
  | some slot =>
    have hid : a.isLive id := by rw [isLive, hslot]; rfl
    rw [Option.bind_some, sweepSlot, if_pos (mem_unreached_iff.mpr ⟨hid, h⟩)]

theorem isLive_collect_iff (hpolicy : a.config.reclamation = .markSweep) :
    (a.collect roots).2.isLive id ↔ a.Reached roots (.slot id) := by
  by_cases h : a.Reached roots (.slot id)
  · obtain ⟨slot, hslot⟩ := h.get?
    by_cases hhandle : a.Reached roots (.handle id)
    · simp [isLive, get?_collect_of_handle hpolicy hhandle, show a.get? id = _ from hslot, h]
    · simp [isLive, get?_collect_of_slot hpolicy h hhandle, show a.get? id = _ from hslot, h]
  · simp [isLive, get?_collect_of_not_reached hpolicy h, h]

/-- What a collection leaves was there before; a body can be gone. -/
theorem get?_of_get?_collect {s' : Slot} (h : (a.collect roots).2.get? id = some s') :
    ∃ s, a.get? id = some s ∧ s'.value = s.value ∧
      ∀ body, s'.body = some body → s.body = some body := by
  cases hpolicy : a.config.reclamation with
  | disabled =>
    rw [collect_of_disabled hpolicy] at h
    exact ⟨s', h, rfl, fun _ hbody => hbody⟩
  | markSweep =>
    rw [get?_collect hpolicy] at h
    obtain ⟨s, hs, hsweep⟩ := Option.bind_eq_some_iff.mp h
    refine ⟨s, hs, ?_⟩
    unfold sweepSlot at hsweep
    split at hsweep
    · cases hsweep
    · split at hsweep
      · obtain rfl := Option.some.inj hsweep
        exact ⟨rfl, fun _ hbody => by cases hbody⟩
      · obtain rfl := Option.some.inj hsweep
        exact ⟨rfl, fun _ hbody => hbody⟩

/-- A collection depends on its roots only through what they lead to. -/
theorem collect_congr {roots' : List Reference}
    (h : ∀ r, a.Reached roots r ↔ a.Reached roots' r) : a.collect roots = a.collect roots' := by
  have hmem (r : Reference) : r ∈ a.unreached a.allReferences roots ↔
      r ∈ a.unreached a.allReferences roots' := by
    rw [mem_unreached_iff, mem_unreached_iff, h]
  have hfreed : a.freed (a.unreached a.allReferences roots) =
      a.freed (a.unreached a.allReferences roots') := by
    simp only [freed, hmem]
  have hsweep : sweepSlot (a.unreached a.allReferences roots) =
      sweepSlot (a.unreached a.allReferences roots') := by
    funext id slot
    simp only [sweepSlot, hmem]
  simp only [collect, sweep, hfreed, hsweep]

end Collect

/-- The effect of a collection, told by what the roots lead to. The free ids are listed with the next
one to be reused first, so ids added in ascending order stand in front in reverse. -/
structure Reclaimed (a : Arena) (roots : List Reference) (report : CollectionReport)
    (a' : Arena) : Prop where
  isLive_iff : ∀ id, a'.isLive id ↔ a.Reached roots (.slot id)
  get?_of_handle : ∀ id, a.Reached roots (.handle id) → a'.get? id = a.get? id
  get?_of_slot : ∀ id, a.Reached roots (.slot id) → ¬ a.Reached roots (.handle id) →
    a'.get? id = (a.get? id).map ({ · with body := none })
  free_eq : ∃ freed : List SlotId, freed.Pairwise (·.index < ·.index) ∧
    (∀ id, id ∈ freed ↔ a.isLive id ∧ ¬ a.Reached roots (.slot id)) ∧
    a'.free = freed.reverse ++ a.free
  marked_eq : report.marked = {id | a.Reached roots (.slot id)}.ncard
  freed_eq : report.freed = {id | a.isLive id ∧ ¬ a.Reached roots (.slot id)}.ncard
  live_eq : a'.live = report.marked
  total_eq : a'.total = a.total
  collections_eq : a'.collections = a.collections + 1
  config_eq : a'.config = a.config
  size_eq : a'.slots.size = a.slots.size

theorem ncard_setOf_mem {l : List SlotId} (h : l.Nodup) : {id | id ∈ l}.ncard = l.length := by
  classical
  rw [← List.coe_toFinset, Set.ncard_coe_finset, List.toFinset_card_of_nodup h]

theorem pairwise_liveSlots (a : Arena) : a.liveSlots.Pairwise (·.index < ·.index) := by
  refine List.Pairwise.filter _ (List.pairwise_map.mpr ?_)
  exact List.pairwise_lt_range

section

variable {a : Arena} {roots : List Reference}

theorem mem_freed_unreached {id : SlotId} : id ∈ a.freed (a.unreached a.allReferences roots) ↔
    a.isLive id ∧ ¬ a.Reached roots (.slot id) := by
  rw [mem_freed, mem_unreached_iff]
  constructor
  · exact fun hid => hid.2
  · exact fun hid => ⟨hid.1, hid⟩

theorem freed_collect (hpolicy : a.config.reclamation = .markSweep) :
    (a.collect roots).1.freed = {id | a.isLive id ∧ ¬ a.Reached roots (.slot id)}.ncard := by
  have hnodup : (a.freed (a.unreached a.allReferences roots)).Nodup := a.nodup_liveSlots.filter _
  rw [collect_of_markSweep hpolicy, ← ncard_setOf_mem hnodup]
  simp only [mem_freed_unreached]

theorem Accounted.live_collect (h : a.Accounted) (hpolicy : a.config.reclamation = .markSweep) :
    (a.collect roots).2.live = (a.collect roots).1.marked := by
  have hlive := (h.collect roots).live_eq
  rw [collect_of_markSweep hpolicy] at hlive ⊢
  rw [h.length_liveSlots]
  exact (Nat.sub_eq_of_eq_add hlive.symm).symm

theorem Accounted.marked_collect (h : a.Accounted) (hpolicy : a.config.reclamation = .markSweep) :
    (a.collect roots).1.marked = {id | a.Reached roots (.slot id)}.ncard := by
  rw [← h.live_collect hpolicy, ← (h.collect roots).accounted.length_liveSlots,
    ← ncard_setOf_mem (nodup_liveSlots _)]
  simp only [mem_liveSlots, isLive_collect_iff hpolicy]

theorem Accounted.reclaimed (h : a.Accounted) (hpolicy : a.config.reclamation = .markSweep)
    (roots : List Reference) : a.Reclaimed roots (a.collect roots).1 (a.collect roots).2 where
  isLive_iff _ := isLive_collect_iff hpolicy
  get?_of_handle _ := get?_collect_of_handle hpolicy
  get?_of_slot _ := get?_collect_of_slot hpolicy
  free_eq := by
    refine ⟨a.freed (a.unreached a.allReferences roots), a.pairwise_liveSlots.filter _,
      fun id => mem_freed_unreached, ?_⟩
    rw [collect_of_markSweep hpolicy]
    rfl
  marked_eq := h.marked_collect hpolicy
  freed_eq := freed_collect hpolicy
  live_eq := h.live_collect hpolicy
  total_eq := (h.collect roots).total_eq
  collections_eq := by
    rw [collect_of_markSweep hpolicy]
    rfl
  config_eq := (h.collect roots).config_eq
  size_eq := (h.collect roots).size_eq

end

/-- **A collection does what reachability says.** In every arena that a run leads to, whatever roots
it starts from: the live slots afterwards are the reached ones, each with its value; a body stays,
unchanged, exactly where a handle is reached; the others are freed in ascending order of their ids,
and the counters say how many. So the order and the repetition of the roots do not matter. -/
theorem collect_reclaims (capacity : UInt32) (calls : List ArenaCall) (roots : List Reference) :
    let a := (new { capacity, reclamation := .markSweep }).run calls
    a.Reclaimed roots (a.collect roots).1 (a.collect roots).2 ∧
      ∀ roots', (∀ r, r ∈ roots' ↔ r ∈ roots) → a.collect roots' = a.collect roots := by
  intro a
  have hnew := accounted_new { capacity, reclamation := .markSweep }
  have hpolicy : a.config.reclamation = .markSweep := by rw [hnew.config_run]; rfl
  refine ⟨(hnew.accounted_run calls).reclaimed hpolicy roots, ?_⟩
  intro roots' hroots
  apply collect_congr
  intro r
  constructor
  · exact fun h => h.mono fun s => (hroots s).mp
  · exact fun h => h.mono fun s => (hroots s).mpr

end Arena

end SlotScript
