import SlotScript.Proofs.Arena.Frame
import SlotScript.Proofs.Follows
import SlotScript.Proofs.Renaming
import Mathlib.Logic.Function.Basic

/-!
# Arenas that mirror each other

`Arena.Mirrored p`: the arena `p.full`, which never frees anything, holds an image of every live slot
of `p.swept`. It may hold more: the images of slots that were freed, and bodies that were dropped.

An allocation may take a freed id on the one side and a new one on the other, so the renaming changes
at that id; it stays as it is at the live ones (`Arena.Moved.agree`). A collection on the side of
`p.swept` alone goes unnoticed (`Mirrored.collect`).
-/

namespace SlotScript

/-- The slot `s'` holds the image of what `s` holds. -/
structure Slot.Mirrors (ρ : SlotId → SlotId) (s s' : Slot) : Prop where
  value_eq : s'.value = s.value.rename ρ
  body_eq : ∀ body, s.body = some body → s'.body = some (body.rename ρ)

def NewContainer.rename (ρ : SlotId → SlotId) : NewContainer → NewContainer
  | .object members => .object (members.map (Prod.map id (Outcome.rename ρ)))
  | .array elements => .array (elements.map (Outcome.rename ρ))
  | .function parameters code scope properties =>
    .function parameters code scope (properties.rename ρ)

theorem Slot.Mirrors.congr {ρ ρ' : SlotId → SlotId} {s s' : Slot} (h : s.Mirrors ρ s')
    (hvalue : ∀ owner, s.value.handle? = some owner → ρ' owner = ρ owner)
    (hbody : ∀ body, s.body = some body → ∀ member ∈ body.members, ρ' member = ρ member) :
    s.Mirrors ρ' s' := by
  constructor
  · rw [h.value_eq, Value.rename_congr hvalue]
  · intro body hs
    rw [h.body_eq body hs, Body.rename_congr (hbody body hs)]

namespace Arena

/-- `p.full` holds an image of what is live in `p.swept`, and has allocated as many slots. -/
structure Mirrored (p : Twin Arena) : Prop where
  accounted : p.swept.Accounted
  closed : p.swept.Closed
  full_accounted : p.full.Accounted
  disabled : p.full.config.reclamation = .disabled
  capacity_eq : p.full.config.capacity = p.swept.config.capacity
  live_le : p.swept.live ≤ p.full.live
  total_eq : p.full.total = p.swept.total
  injective : ∀ {i j}, p.swept.isLive i → p.swept.isLive j → p.image i = p.image j → i = j
  slot : ∀ {id s}, p.swept.get? id = some s →
    ∃ s', p.full.get? (p.image id) = some s' ∧ s.Mirrors p.image s'

/-- The slots that are live in `p.swept` stay live and keep their images. -/
structure Moved (p q : Twin Arena) : Prop where
  kept : p.swept.Kept q.swept
  mirrored : Mirrored q
  agree : ∀ {id}, p.swept.isLive id → q.image id = p.image id

instance : IsTrans (Twin Arena) Moved where
  trans _ _ _ h h' :=
    ⟨trans_of Kept h.kept h'.kept, h'.mirrored,
      fun hid => (h'.agree (h.kept.isLive hid)).trans (h.agree hid)⟩

/-- `Moved`, and every live slot of `p.swept` is as it was. -/
structure Widened (p q : Twin Arena) : Prop extends Moved p q where
  get?_eq : ∀ {id slot}, p.swept.get? id = some slot → q.swept.get? id = some slot

instance : IsTrans (Twin Arena) Widened where
  trans _ _ _ h h' :=
    ⟨trans_of Moved h.toMoved h'.toMoved, fun hslot => h'.get?_eq (h.get?_eq hslot)⟩

variable {p q : Twin Arena}

theorem Widened.extended (h : Widened p q) : p.swept.Extended q.swept := ⟨h.kept, h.get?_eq⟩

theorem Mirrored.moved_refl (h : Mirrored p) : Moved p p :=
  ⟨h.closed.kept_refl h.accounted, h, fun _ => rfl⟩

theorem Mirrored.widened_refl (h : Mirrored p) : Widened p p := ⟨h.moved_refl, fun hslot => hslot⟩

theorem Mirrored.isLive (h : Mirrored p) {id : SlotId} (hid : p.swept.isLive id) :
    p.full.isLive (p.image id) := by
  obtain ⟨s, hs⟩ := get?_of_isLive hid
  obtain ⟨s', hs', -⟩ := h.slot hs
  exact isLive_of_get? hs'

theorem Moved.value_rename (h : Moved p q) {v : Value} (hv : v.ValidIn p.swept) :
    v.rename q.image = v.rename p.image :=
  Value.rename_congr fun _ howner => h.agree (hv.isLive howner)

theorem Moved.outcome_rename (h : Moved p q) {o : Outcome} (ho : o.ValidIn p.swept) :
    o.rename q.image = o.rename p.image := by
  cases o with
  | fresh value => exact congrArg Outcome.fresh (h.value_rename ho)
  | aliased slot => exact congrArg Outcome.aliased (h.agree ho)
  | minted slot => exact congrArg Outcome.minted (h.agree ho)

/-! ### Reading -/

theorem Mirrored.value_eq_ok (h : Mirrored p) {id : SlotId} {s : Slot}
    (hs : p.swept.get? id = some s) : p.full.value (p.image id) = .ok (s.value.rename p.image) := by
  obtain ⟨s', hs', hmirrors⟩ := h.slot hs
  rw [Arena.value_eq_ok hs', hmirrors.value_eq]

theorem Mirrored.body_eq_ok (h : Mirrored p) {owner : SlotId} {s : Slot} {body : Body}
    (hs : p.swept.get? owner = some s) (hbody : s.body = some body) :
    p.full.body (p.image owner) = .ok (body.rename p.image) := by
  obtain ⟨s', hs', hmirrors⟩ := h.slot hs
  exact Arena.body_eq_ok hs' (hmirrors.body_eq body hbody)

/-- A valid outcome and its image stand for a value and its image. -/
theorem Mirrored.resolve (h : Mirrored p) {o : Outcome} (ho : o.ValidIn p.swept) :
    ∃ v, p.swept.resolve o = .ok v ∧ v.ValidIn p.swept ∧
      p.full.resolve (o.rename p.image) = .ok (v.rename p.image) := by
  cases o with
  | fresh value => exact ⟨value, rfl, ho, rfl⟩
  | aliased slot =>
    obtain ⟨s, hs⟩ := get?_of_isLive ho
    exact ⟨s.value, Arena.value_eq_ok hs, h.closed.value hs, h.value_eq_ok hs⟩
  | minted slot =>
    obtain ⟨s, hs⟩ := get?_of_isLive ho
    exact ⟨s.value, Arena.value_eq_ok hs, h.closed.value hs, h.value_eq_ok hs⟩

theorem Mirrored.getProperty (h : Mirrored p) {base : Value} (hbase : base.ValidIn p.swept)
    (key : String) :
    ∃ o, p.swept.getProperty base key = .ok o ∧ o.ValidIn p.swept ∧
      p.full.getProperty (base.rename p.image) key = .ok (o.rename p.image) := by
  unfold Arena.getProperty
  rw [Value.handle?_rename]
  cases howner : base.handle? with
  | none =>
    refine ⟨_, rfl, Value.validIn_of_handle?_eq_none _ (base.handle?_primitiveProperty key), ?_⟩
    exact congrArg (fun v => Except.ok (Outcome.fresh v)) (base.primitiveProperty_rename key)
  | some owner =>
    obtain ⟨s, body, hs, hbody⟩ := hbase.body howner
    refine ⟨body.property key, ?_, h.closed.property hs hbody key, ?_⟩
    · simp only [Arena.body_eq_ok hs hbody]
      rfl
    · simp only [Option.map_some, h.body_eq_ok hs hbody]
      exact congrArg Except.ok (body.property_rename key)

/-! ### Allocating and changing a slot -/

theorem Allocated.isLive_of_ne {a a' : Arena} {id other : SlotId} {slot : Slot}
    (h : a.Allocated id slot a') (hother : a'.isLive other) (hne : other ≠ id) : a.isLive other := by
  rwa [Arena.isLive, h.get?_eq, if_neg hne] at hother

section Allocated

variable {id id' : SlotId} {s s' : Slot} {swept full : Arena}

/-- Setting the image of a new slot leaves those of the live ones. -/
theorem Allocated.update_eq (hswept : p.swept.Allocated id s swept) {other : SlotId}
    (hother : p.swept.isLive other) :
    Function.update p.image id id' other = p.image other := by
  apply Function.update_of_ne
  rintro rfl
  exact hswept.not_isLive hother

/-- A new slot of `p.full` is no image. -/
theorem Mirrored.image_ne (h : Mirrored p) (hfull : p.full.Allocated id' s' full) {other : SlotId}
    (hother : p.swept.isLive other) : p.image other ≠ id' := by
  rintro rfl
  exact hfull.not_isLive (h.isLive hother)

theorem Mirrored.injective_update (h : Mirrored p) (hswept : p.swept.Allocated id s swept)
    (hfull : p.full.Allocated id' s' full) {i j : SlotId} (hi : swept.isLive i) (hj : swept.isLive j)
    (heq : Function.update p.image id id' i = Function.update p.image id id' j) : i = j := by
  by_cases hiid : i = id
  · subst hiid
    by_contra hne
    have hj := hswept.isLive_of_ne hj (Ne.symm hne)
    rw [Function.update_self, hswept.update_eq hj] at heq
    exact h.image_ne hfull hj heq.symm
  · have hi := hswept.isLive_of_ne hi hiid
    by_cases hjid : j = id
    · subst hjid
      rw [hswept.update_eq hi, Function.update_self] at heq
      exact absurd heq (h.image_ne hfull hi)
    · have hj := hswept.isLive_of_ne hj hjid
      rw [hswept.update_eq hi, hswept.update_eq hj] at heq
      exact h.injective hi hj heq

theorem Mirrored.slot_update (h : Mirrored p) (hswept : p.swept.Allocated id s swept)
    (hfull : p.full.Allocated id' s' full) (hs : s.Mirrors (Function.update p.image id id') s')
    {other : SlotId} {t : Slot} (ht : swept.get? other = some t) :
    ∃ t', full.get? (Function.update p.image id id' other) = some t' ∧
      t.Mirrors (Function.update p.image id id') t' := by
  rw [hswept.get?_eq] at ht
  by_cases hother : other = id
  · subst hother
    rw [if_pos rfl] at ht
    obtain rfl := Option.some.inj ht
    refine ⟨s', ?_, hs⟩
    rw [Function.update_self, hfull.get?_eq, if_pos rfl]
  · rw [if_neg hother] at ht
    obtain ⟨t', ht', hmirrors⟩ := h.slot ht
    have hlive := isLive_of_get? ht
    refine ⟨t', ?_, hmirrors.congr ?_ ?_⟩
    · rw [hswept.update_eq hlive, hfull.get?_eq, if_neg (h.image_ne hfull hlive), ht']
    · intro owner howner
      exact hswept.update_eq ((h.closed.value ht).isLive howner)
    · intro body hbody member hmem
      exact hswept.update_eq (h.closed.member ht hbody member hmem)

/-- A new slot on both sides: its image is set, and that of the others stays. -/
theorem Mirrored.widened_allocated (h : Mirrored p) (hswept : p.swept.Allocated id s swept)
    (hextended : p.swept.Extended swept) (hfull : p.full.Allocated id' s' full)
    (hs : s.Mirrors (Function.update p.image id id') s') :
    Widened p ⟨Function.update p.image id id', swept, full⟩ := by
  refine ⟨⟨hextended.toKept, ⟨hswept.accounted, hextended.closed, hfull.accounted, ?_, ?_, ?_, ?_,
    h.injective_update hswept hfull, h.slot_update hswept hfull hs⟩, hswept.update_eq⟩,
    hextended.get?_eq⟩
  · rw [hfull.config_eq, h.disabled]
  · rw [hfull.config_eq, hswept.config_eq, h.capacity_eq]
  · rw [hfull.live_eq, hswept.live_eq]
    exact Nat.succ_le_succ h.live_le
  · rw [hfull.total_eq, hswept.total_eq, h.total_eq]

end Allocated

/-- The same change on both sides, to a live slot and to its image. -/
theorem Mirrored.moved_modifySlot (h : Mirrored p) {id : SlotId} {f f' : Slot → Slot}
    (hid : p.swept.isLive id) (hkept : p.swept.Kept (p.swept.modifySlot id f))
    (hshape : ∀ s, (f' s).body.map Body.shape = s.body.map Body.shape)
    (hf : ∀ s s', p.swept.get? id = some s → s.Mirrors p.image s' → (f s).Mirrors p.image (f' s')) :
    Moved p ⟨p.image, p.swept.modifySlot id f, p.full.modifySlot (p.image id) f'⟩ := by
  have hlive {other : SlotId} (hother : (p.swept.modifySlot id f).isLive other) :
      p.swept.isLive other := by
    rw [Arena.isLive, get?_modifySlot] at hother
    split at hother
    · rwa [Option.isSome_map] at hother
    · exact hother
  refine ⟨hkept, ⟨hkept.accounted, hkept.closed, ?_, h.disabled, h.capacity_eq, h.live_le,
    h.total_eq, ?_, ?_⟩, fun _ => rfl⟩
  · exact (h.full_accounted.grown_modifySlot _ hshape).accounted
  · intro i j hi hj heq
    exact h.injective (hlive hi) (hlive hj) heq
  · intro other t ht
    rw [get?_modifySlot] at ht
    by_cases hother : other = id
    · subst hother
      rw [if_pos rfl] at ht
      obtain ⟨s, hs, rfl⟩ := Option.map_eq_some_iff.mp ht
      obtain ⟨s', hs', hmirrors⟩ := h.slot hs
      refine ⟨f' s', ?_, hf s s' hs hmirrors⟩
      rw [get?_modifySlot, if_pos rfl, hs', Option.map_some]
    · rw [if_neg hother] at ht
      obtain ⟨t', ht', hmirrors⟩ := h.slot ht
      refine ⟨t', ?_, hmirrors⟩
      rw [get?_modifySlot, if_neg, ht']
      intro heq
      exact hother (h.injective (isLive_of_get? ht) hid heq)

/-! ### Collecting -/

/-- **A collection goes unnoticed** on the other side. -/
theorem Mirrored.collect (h : Mirrored p) (roots : List Reference) :
    Mirrored ⟨p.image, (p.swept.collect roots).2, p.full⟩ := by
  have hshrunk := h.accounted.collect roots
  have hlive {id : SlotId} (hid : (p.swept.collect roots).2.isLive id) : p.swept.isLive id := by
    obtain ⟨s', hs'⟩ := get?_of_isLive hid
    obtain ⟨s, hs, -⟩ := get?_of_get?_collect hs'
    exact isLive_of_get? hs
  refine ⟨hshrunk.accounted, h.closed.collect roots, h.full_accounted, h.disabled, ?_, ?_, ?_, ?_, ?_⟩
  · rw [hshrunk.config_eq, h.capacity_eq]
  · have hle := h.live_le
    have heq := hshrunk.live_eq
    show (p.swept.collect roots).2.live ≤ p.full.live
    omega
  · rw [hshrunk.total_eq, h.total_eq]
  · intro i j hi hj heq
    exact h.injective (hlive hi) (hlive hj) heq
  · intro id s' hs'
    obtain ⟨s, hs, hvalue, hbody⟩ := get?_of_get?_collect hs'
    obtain ⟨t, ht, hmirrors⟩ := h.slot hs
    refine ⟨t, ht, ?_, ?_⟩
    · rw [hvalue, hmirrors.value_eq]
    · intro body hs'body
      exact hmirrors.body_eq body (hbody body hs'body)

end Arena

namespace ArenaM

open Arena (Mirrored Moved Widened)

variable {p : Twin Arena}

/-! ### Adding slots -/

/-- If the full arena has room for a slot, so has the other. -/
theorem follows_allocWith (h : Mirrored p) {content content' : SlotId → Slot}
    (hextended : ∀ id a, p.swept.Allocated id (content id) a → p.swept.Extended a)
    (hcontent : ∀ id id', ¬ p.swept.isLive id →
      (content id).Mirrors (Function.update p.image id id') (content' id')) :
    Follows Widened (·.isFatal) (allocWith content) (allocWith content') p
      (fun id id' q => id' = q.image id ∧ q.swept.isLive id) := by
  refine Ends.mono (h.full_accounted.ends_allocWith content') ?_ ?_
  · rintro id' full ⟨hroom, hfull⟩
    have hends := h.accounted.ends_allocWith content
    cases hact : allocWith content p.swept with
    | ok id swept =>
      obtain ⟨-, hswept⟩ := (ends_ok hact).mp hends
      exact ⟨id, swept, Function.update p.image id id', rfl,
        h.widened_allocated hswept (hextended id swept hswept) hfull (hcontent id id' hswept.not_isLive),
        (Function.update_self id id' p.image).symm, hswept.isLive⟩
    | error e swept =>
      obtain ⟨hcapacity, -⟩ := (ends_error hact).mp hends
      have hle := h.live_le
      rw [h.capacity_eq] at hroom
      omega
  · rintro e full ⟨-, rfl, -⟩
    exact .inl rfl

theorem follows_alloc (h : Mirrored p) {v : Value} (hv : v.ValidIn p.swept) :
    Follows Widened (·.isFatal) (alloc v) (alloc (v.rename p.image)) p
      (fun id id' q => id' = q.image id ∧ q.swept.isLive id) := by
  refine follows_allocWith h (fun _ _ => h.closed.extended_alloc hv) ?_
  intro id id' hid
  constructor
  · apply Value.rename_congr
    intro owner howner
    refine (Function.update_of_ne ?_ _ _).symm
    rintro rfl
    exact hid (hv.isLive howner)
  · intro body hbody
    cases hbody

theorem follows_allocBody (h : Mirrored p) {body : Body}
    (hbody : ∀ member ∈ body.members, p.swept.isLive member) :
    Follows Widened (·.isFatal) (allocBody body) (allocBody (body.rename p.image)) p
      (fun id id' q => id' = q.image id ∧ q.swept.isLive id) := by
  refine follows_allocWith h (fun _ _ => h.closed.extended_allocBody hbody) ?_
  intro id id' hid
  constructor
  · show Value.compound _ id' = .compound _ (Function.update p.image id id' id)
    rw [Function.update_self, Body.shape_rename]
  · intro b hb
    obtain rfl := Option.some.inj hb
    apply congrArg some
    apply Body.rename_congr
    intro member hmem
    refine (Function.update_of_ne ?_ _ _).symm
    rintro rfl
    exact hid (hbody _ hmem)

theorem follows_bindingSlot (h : Mirrored p) {o : Outcome} (ho : o.ValidIn p.swept) :
    Follows Widened (·.isFatal) (bindingSlot o) (bindingSlot (o.rename p.image)) p
      (fun id id' q => id' = q.image id ∧ q.swept.isLive id) := by
  cases o with
  | fresh value => exact follows_alloc h ho
  | aliased slot =>
    obtain ⟨s, hs⟩ := Arena.get?_of_isLive ho
    exact follows_bind_of_ok (read_eq_ok (Arena.value_eq_ok hs)) (read_eq_ok (h.value_eq_ok hs))
      (follows_alloc h (h.closed.value hs))
  | minted slot =>
    obtain ⟨s, hs⟩ := get_eq_ok ho
    obtain ⟨s', hs'⟩ := get_eq_ok (h.isLive ho)
    exact follows_bind_of_ok (read_eq_ok hs) (read_eq_ok hs')
      (follows_pure h.widened_refl ⟨rfl, ho⟩)

theorem follows_memberSlot (h : Mirrored p) {o : Outcome} (ho : o.ValidIn p.swept) :
    Follows Widened (·.isFatal) (memberSlot o) (memberSlot (o.rename p.image)) p
      (fun r r' q => r'.1 = q.image r.1 ∧ q.swept.isLive r.1) := by
  have hshared {slot : SlotId} (hslot : p.swept.isLive slot) (alone : Bool) :
      Follows Widened ArenaError.isFatal
        (do let _ ← read (·.get slot); return (slot, alone))
        (do let _ ← read (·.get (p.image slot)); return (p.image slot, alone)) p
        (fun r r' q => r'.1 = q.image r.1 ∧ q.swept.isLive r.1) := by
    obtain ⟨s, hs⟩ := get_eq_ok hslot
    obtain ⟨s', hs'⟩ := get_eq_ok (h.isLive hslot)
    exact follows_bind_of_ok (read_eq_ok hs) (read_eq_ok hs')
      (follows_pure h.widened_refl ⟨rfl, hslot⟩)
  cases o with
  | fresh value =>
    apply (follows_alloc h ho).bind
    intro id id' q hwidened hid
    exact follows_pure hwidened.mirrored.widened_refl hid
  | aliased slot => exact hshared ho false
  | minted slot => exact hshared ho true

theorem follows_elementSlots (h : Mirrored p) {elements : List Outcome}
    (hvalid : ∀ element ∈ elements, element.ValidIn p.swept) :
    Follows Widened (·.isFatal) (elementSlots elements)
      (elementSlots (elements.map (Outcome.rename p.image))) p
      (fun slots slots' q => slots' = slots.map q.image ∧ ∀ slot ∈ slots, q.swept.isLive slot) := by
  induction elements generalizing p with
  | nil => exact follows_pure h.widened_refl ⟨rfl, List.forall_mem_nil _⟩
  | cons element rest ih =>
    apply (follows_memberSlot h (hvalid _ List.mem_cons_self)).bind
    rintro ⟨slot, _⟩ ⟨_, _⟩ q hq ⟨rfl, hslot⟩
    have hrest (other : Outcome) (hother : other ∈ rest) : other.ValidIn p.swept :=
      hvalid other (List.mem_cons_of_mem _ hother)
    have hrename : rest.map (Outcome.rename p.image) = rest.map (Outcome.rename q.image) :=
      List.map_congr_left fun other hother => (hq.outcome_rename (hrest other hother)).symm
    rw [hrename]
    apply (ih hq.mirrored fun other hother => hq.kept.outcome_validIn (hrest other hother)).bind
    rintro slots _ r hr ⟨rfl, hslots⟩
    refine follows_pure hr.mirrored.widened_refl ⟨?_, ?_⟩
    · rw [List.map_cons, hr.agree hslot]
    · intro other hother
      rcases List.mem_cons.mp hother with rfl | hother
      · exact hr.kept.isLive hslot
      · exact hslots other hother

theorem follows_namedSlots (h : Mirrored p) {members : List (String × Outcome)}
    (hvalid : ∀ member ∈ members, member.2.ValidIn p.swept) :
    Follows Widened (·.isFatal) (namedSlots members)
      (namedSlots (members.map (Prod.map id (Outcome.rename p.image)))) p
      (fun slots slots' q => slots' = slots.map (Prod.map id q.image) ∧
        ∀ entry ∈ slots, q.swept.isLive entry.2) := by
  have helements (element : Outcome) (helement : element ∈ members.map (·.2)) :
      element.ValidIn p.swept := by
    obtain ⟨member, hmember, rfl⟩ := List.mem_map.mp helement
    exact hvalid member hmember
  have hvalues : (members.map (Prod.map id (Outcome.rename p.image))).map (·.2) =
      (members.map (·.2)).map (Outcome.rename p.image) := by
    rw [List.map_map, List.map_map]
    rfl
  have hnames : (members.map (Prod.map id (Outcome.rename p.image))).map (·.1) =
      members.map (·.1) := by
    rw [List.map_map]
    rfl
  rw [namedSlots_eq_map, namedSlots_eq_map, hvalues, hnames]
  apply (follows_elementSlots h helements).map
  rintro slots _ q _ ⟨rfl, hslots⟩
  refine ⟨List.zip_map_right, ?_⟩
  intro entry hentry
  exact hslots _ (List.of_mem_zip hentry).2

/-- Containers built from members and from their images. -/
theorem follows_build (h : Mirrored p) {container : NewContainer}
    (hvalid : container.ValidIn p.swept) :
    Follows Widened (·.isFatal) (build container) (build (container.rename p.image)) p
      (fun id id' q => id' = q.image id ∧ q.swept.isLive id) := by
  cases container with
  | object members =>
    apply (follows_namedSlots h hvalid).bind
    rintro slots _ q hq ⟨rfl, hslots⟩
    rw [NameTable.ofList_rename]
    apply follows_allocBody hq.mirrored
    intro member hmember
    obtain ⟨entry, hentry, rfl⟩ := List.mem_map.mp (NameTable.mem_slots_ofList hmember)
    exact hslots entry hentry
  | array elements =>
    apply (follows_elementSlots h hvalid).bind
    rintro slots _ q hq ⟨rfl, hslots⟩
    rw [Elements.ofList_rename]
    apply follows_allocBody hq.mirrored
    intro member hmember
    rcases Body.mem_members_iff.mp hmember with ⟨e, he, hmember⟩ | hmember
    · obtain rfl := Option.some.inj he
      exact hslots member (Elements.mem_slots_ofList hmember)
    · cases hmember
  | function parameters code scope properties => exact follows_allocBody h hvalid

/-! ### Writing -/

theorem follows_setValue (h : Mirrored p) {slot : SlotId} {v : Value}
    (hslot : p.swept.isLive slot) (hv : v.ValidIn p.swept) :
    Follows Moved (·.isFatal) (setValue slot v) (setValue (p.image slot) (v.rename p.image)) p
      (fun _ _ _ => True) := by
  obtain ⟨s, hs⟩ := get_eq_ok hslot
  obtain ⟨s', hs'⟩ := get_eq_ok (h.isLive hslot)
  apply follows_bind_of_ok (read_eq_ok hs) (read_eq_ok hs')
  refine follows_of_ok p.image rfl rfl ?_ trivial
  refine h.moved_modifySlot hslot (h.closed.kept_setValue h.accounted hv) (fun _ => rfl) ?_
  intro s s' _ hmirrors
  exact ⟨rfl, hmirrors.body_eq⟩

theorem follows_modifyBody (h : Mirrored p) {owner : SlotId} {s : Slot} {body : Body}
    {f f' : Body → Body} (hs : p.swept.get? owner = some s) (hbody : s.body = some body)
    (hshape : ∀ b, (f b).shape = b.shape) (hshape' : ∀ b, (f' b).shape = b.shape)
    (hmember : ∀ member ∈ (f body).members, p.swept.isLive member)
    (hf : f' (body.rename p.image) = (f body).rename p.image) :
    Follows Moved (·.isFatal) (modifyBody owner f) (modifyBody (p.image owner) f') p
      (fun _ _ _ => True) := by
  refine follows_bind_of_ok (read_eq_ok (Arena.body_eq_ok hs hbody))
    (read_eq_ok (h.body_eq_ok hs hbody)) ?_
  refine follows_of_ok p.image rfl rfl ?_ trivial
  refine h.moved_modifySlot (Arena.isLive_of_get? hs)
    (h.closed.kept_modifyBody h.accounted hs hbody hshape hmember) ?_ ?_
  · intro t
    show (t.body.map f').map Body.shape = t.body.map Body.shape
    cases t.body with
    | none => rfl
    | some b => exact congrArg some (hshape' b)
  · intro t t' ht hmirrors
    refine ⟨hmirrors.value_eq, ?_⟩
    intro b hb
    obtain rfl := Option.some.inj (hs.symm.trans ht)
    have hb : s.body.map f = some b := hb
    rw [hbody, Option.map_some] at hb
    obtain rfl := Option.some.inj hb
    show t'.body.map f' = _
    rw [hmirrors.body_eq body hbody, Option.map_some, hf]

theorem arrayLength_rename (ρ : SlotId → SlotId) (v : Value) :
    arrayLength (v.rename ρ) = arrayLength v := by
  unfold arrayLength
  rw [Value.toNumber_rename]

theorem follows_setLength (h : Mirrored p) {owner : SlotId} {s : Slot} {body : Body}
    (hs : p.swept.get? owner = some s) (hbody : s.body = some body) {o : Outcome}
    (ho : o.ValidIn p.swept) :
    Follows Moved (·.isFatal) (setLength owner o) (setLength (p.image owner) (o.rename p.image)) p
      (fun _ _ _ => True) := by
  obtain ⟨v, hv, -, hv'⟩ := h.resolve ho
  apply follows_bind_of_ok (read_eq_ok hv) (read_eq_ok hv')
  rw [arrayLength_rename]
  cases arrayLength v with
  | error e => exact follows_of_error p.image rfl rfl h.moved_refl
  | ok length =>
    apply follows_bind_of_ok rfl rfl
    refine follows_modifyBody h hs hbody (Body.shape_mapElements _) (Body.shape_mapElements _) ?_ ?_
    · intro member hmember
      exact h.closed.member hs hbody member (Body.mem_members_setLength hmember)
    · exact Body.mapElements_rename (fun e => e.setLength_rename length) body

theorem follows_setPlace (h : Mirrored p) {owner : SlotId} {s : Slot} {body : Body}
    (hs : p.swept.get? owner = some s) (hbody : s.body = some body) (place : Place) {o : Outcome}
    (ho : o.ValidIn p.swept) :
    Follows Moved (·.isFatal) (setPlace owner place o)
      (setPlace (p.image owner) place (o.rename p.image)) p (fun _ _ _ => True) := by
  refine follows_bind_of_ok (read_eq_ok (Arena.body_eq_ok hs hbody))
    (read_eq_ok (h.body_eq_ok hs hbody)) ?_
  rw [Body.slotAt?_rename]
  cases hslot : body.slotAt? place with
  | some slot =>
    obtain ⟨v, hv, hvalid, hv'⟩ := h.resolve ho
    have hlive := h.closed.member hs hbody slot (Body.mem_members_of_slotAt? hslot)
    exact follows_bind_of_ok (read_eq_ok hv) (read_eq_ok hv') (follows_setValue h hlive hvalid)
  | none =>
    have hnew := (follows_memberSlot h ho).mono (fun q hq => hq.toMoved)
      fun _ _ q hq hslot => And.intro hq hslot
    apply hnew.bind
    rintro ⟨slot, _⟩ ⟨_, _⟩ q - ⟨hq, rfl, hlive⟩
    have howner : q.image owner = p.image owner := hq.agree (Arena.isLive_of_get? hs)
    rw [← howner]
    refine follows_modifyBody hq.mirrored (hq.get?_eq hs) hbody (Body.shape_putSlot place _)
      (Body.shape_putSlot place _) ?_ (body.putSlot_rename place slot)
    intro member hmember
    rcases Body.mem_members_putSlot hmember with rfl | hold
    · exact hlive
    · exact hq.kept.isLive (h.closed.member hs hbody member hold)

/-- Writes to a base and to its image. -/
theorem follows_setProperty (h : Mirrored p) {base : Value} (key : String) {o : Outcome}
    (hbase : base.ValidIn p.swept) (ho : o.ValidIn p.swept) :
    Follows Moved (·.isFatal) (setProperty base key o)
      (setProperty (base.rename p.image) key (o.rename p.image)) p (fun _ _ _ => True) := by
  unfold setProperty
  rw [Value.handle?_rename]
  cases howner : base.handle? with
  | none => exact follows_pure h.moved_refl trivial
  | some owner =>
    obtain ⟨s, body, hs, hbody⟩ := hbase.body howner
    refine follows_bind_of_ok (read_eq_ok (Arena.body_eq_ok hs hbody))
      (read_eq_ok (h.body_eq_ok hs hbody)) ?_
    rw [Body.place_rename]
    cases body.place key with
    | length => exact follows_setLength h hs hbody ho
    | element index => exact follows_setPlace h hs hbody _ ho
    | property name => exact follows_setPlace h hs hbody _ ho

end ArenaM

end SlotScript
