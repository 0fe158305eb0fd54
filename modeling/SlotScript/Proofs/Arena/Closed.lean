import SlotScript.Proofs.Arena.Reachability
import SlotScript.Proofs.Members

/-!
# Closed arenas

An arena is closed when what it stores leads somewhere: the handle in a value to a body of the value's
shape, and the members of a body to live slots. Operations whose arguments lead somewhere keep an
arena closed, and fail only for want of slots or because of the length asked for.

* Operations that build only add slots (`Arena.Extended`): every live slot stays as it is.
* A write changes a value or a body (`Arena.Kept`): every live slot stays, and so do the shapes of the
  bodies.
-/

namespace SlotScript

/-! ### References that lead somewhere -/

/-- The shape of the body that a slot owns. -/
def Arena.shape? (a : Arena) (id : SlotId) : Option Shape :=
  (a.get? id).bind (·.body.map Body.shape)

/-- The handle in a value, if it has one, leads to a body of the value's shape. -/
def Value.ValidIn (a : Arena) : Value → Prop
  | .compound shape owner => a.shape? owner = some shape
  | _ => True

def Reference.ValidIn (a : Arena) : Reference → Prop
  | .slot id => a.isLive id
  | .handle id => (a.shape? id).isSome

def Outcome.ValidIn (a : Arena) : Outcome → Prop
  | .fresh value => value.ValidIn a
  | .aliased slot | .minted slot => a.isLive slot

def NewContainer.ValidIn (a : Arena) : NewContainer → Prop
  | .object members => ∀ member ∈ members, member.2.ValidIn a
  | .array elements => ∀ element ∈ elements, element.ValidIn a
  | .function _ _ _ properties => ∀ slot ∈ properties.slots, a.isLive slot

/-- A new function has no members. -/
theorem NewContainer.validIn_function (a : Arena) (parameters : List String) (code scope : Nat) :
    NewContainer.ValidIn a (.function parameters code scope) := List.forall_mem_nil _

/-- What the arena stores leads somewhere. -/
structure Arena.Closed (a : Arena) : Prop where
  value : ∀ {id slot}, a.get? id = some slot → slot.value.ValidIn a
  member : ∀ {id slot body}, a.get? id = some slot → slot.body = some body →
    ∀ member ∈ body.members, a.isLive member

theorem Value.validIn_of_handle?_eq_none {v : Value} (a : Arena) (h : v.handle? = none) :
    v.ValidIn a := by
  cases v with
  | compound shape owner => cases h
  | _ => trivial

/-- A valid value stays valid where the shape of what it refers to stays. -/
theorem Value.ValidIn.of_shape? {v : Value} {a a' : Arena} (h : v.ValidIn a)
    (hshape : ∀ owner shape, v.handle? = some owner → a.shape? owner = some shape →
      a'.shape? owner = some shape) : v.ValidIn a' := by
  cases v with
  | compound shape owner => exact hshape owner shape rfl h
  | _ => trivial

/-- The body that a valid handle leads to. -/
theorem Value.ValidIn.body {v : Value} {a : Arena} {owner : SlotId} (h : v.ValidIn a)
    (howner : v.handle? = some owner) :
    ∃ slot body, a.get? owner = some slot ∧ slot.body = some body := by
  cases v with
  | compound shape id =>
    obtain rfl := Option.some.inj howner
    obtain ⟨slot, hslot, hshape⟩ := Option.bind_eq_some_iff.mp h
    obtain ⟨body, hbody, -⟩ := Option.map_eq_some_iff.mp hshape
    exact ⟨slot, body, hslot, hbody⟩
  | _ => cases howner

theorem Value.ValidIn.isLive {v : Value} {a : Arena} {owner : SlotId} (h : v.ValidIn a)
    (howner : v.handle? = some owner) : a.isLive owner := by
  obtain ⟨slot, body, hslot, -⟩ := h.body howner
  exact Arena.isLive_of_get? hslot

namespace Arena

variable {a a' : Arena} {id : SlotId}

theorem isLive_of_shape? {shape : Shape} (h : a.shape? id = some shape) : a.isLive id := by
  obtain ⟨slot, hslot, -⟩ := Option.bind_eq_some_iff.mp h
  exact isLive_of_get? hslot

theorem value_eq_ok {slot : Slot} (h : a.get? id = some slot) : a.value id = .ok slot.value := by
  simp only [Arena.value, Arena.get, h]; rfl

theorem body_eq_ok {slot : Slot} {body : Body} (h : a.get? id = some slot)
    (hbody : slot.body = some body) : a.body id = .ok body := by
  simp only [Arena.body, Arena.get, h, bind, Except.bind, hbody]; rfl

theorem get?_of_get {slot : Slot} (h : a.get id = .ok slot) : a.get? id = some slot := by
  unfold Arena.get at h
  cases hslot : a.get? id with
  | some s => rw [hslot] at h; cases h; rfl
  | none => rw [hslot] at h; cases h

theorem get?_of_value {v : Value} (h : a.value id = .ok v) :
    ∃ slot, a.get? id = some slot ∧ slot.value = v := by
  cases hslot : a.get? id with
  | none => simp [Arena.value, Arena.get, hslot, bind, Except.bind] at h
  | some slot =>
    rw [value_eq_ok hslot] at h
    exact ⟨slot, rfl, Except.ok.inj h⟩

theorem get?_of_body {body : Body} (h : a.body id = .ok body) :
    ∃ slot, a.get? id = some slot ∧ slot.body = some body := by
  obtain ⟨slot, hslot⟩ := get?_of_isLive (isLive_of_body h)
  refine ⟨slot, hslot, ?_⟩
  simp only [Arena.body, Arena.get, hslot, bind, Except.bind] at h
  cases hbody : slot.body with
  | some b => rw [hbody] at h; cases h; rfl
  | none => rw [hbody] at h; cases h

theorem Grown.shape?_eq (h : a.Grown a') {shape : Shape} (hid : a.shape? id = some shape) :
    a'.shape? id = some shape := by
  obtain ⟨slot, hslot, hshape⟩ := Option.bind_eq_some_iff.mp hid
  obtain ⟨slot', hslot', heq⟩ := h.shape_eq hslot
  exact Option.bind_eq_some_iff.mpr ⟨slot', hslot', heq.trans hshape⟩

theorem Grown.value_validIn (h : a.Grown a') {v : Value} (hv : v.ValidIn a) : v.ValidIn a' :=
  hv.of_shape? fun _ _ _ hid => h.shape?_eq hid

theorem Grown.outcome_validIn (h : a.Grown a') {o : Outcome} (ho : o.ValidIn a) : o.ValidIn a' := by
  cases o with
  | fresh value => exact h.value_validIn ho
  | aliased slot => exact h.isLive ho
  | minted slot => exact h.isLive ho

theorem Grown.reference_validIn (h : a.Grown a') {r : Reference} (hr : r.ValidIn a) :
    r.ValidIn a' := by
  cases r with
  | slot id => exact h.isLive hr
  | handle id =>
    obtain ⟨shape, hshape⟩ := Option.isSome_iff_exists.mp hr
    exact Option.isSome_iff_exists.mpr ⟨shape, h.shape?_eq hshape⟩

/-- A valid outcome stands for a value, and that is valid. -/
theorem Closed.resolve (h : a.Closed) {o : Outcome} (ho : o.ValidIn a) :
    ∃ v, a.resolve o = .ok v ∧ v.ValidIn a := by
  cases o with
  | fresh value => exact ⟨value, rfl, ho⟩
  | aliased slot =>
    obtain ⟨s, hs⟩ := get?_of_isLive ho
    exact ⟨s.value, value_eq_ok hs, h.value hs⟩
  | minted slot =>
    obtain ⟨s, hs⟩ := get?_of_isLive ho
    exact ⟨s.value, value_eq_ok hs, h.value hs⟩

theorem Closed.property (h : a.Closed) {slot : Slot} {body : Body} (hslot : a.get? id = some slot)
    (hbody : slot.body = some body) (key : String) : (body.property key).ValidIn a := by
  unfold Body.property
  cases body.place key with
  | length => trivial
  | _ =>
    dsimp only
    split
    · next member hmember =>
      exact h.member hslot hbody member (Body.mem_members_of_slotAt? hmember)
    · trivial

/-- A property of a valid base can be read, and what is read is valid. -/
theorem Closed.getProperty (h : a.Closed) {base : Value} (hbase : base.ValidIn a) (key : String) :
    ∃ o, a.getProperty base key = .ok o ∧ o.ValidIn a := by
  unfold Arena.getProperty
  cases howner : base.handle? with
  | none =>
    exact ⟨_, rfl, Value.validIn_of_handle?_eq_none a (base.handle?_primitiveProperty key)⟩
  | some owner =>
    obtain ⟨slot, body, hslot, hbody⟩ := hbase.body howner
    refine ⟨body.property key, ?_, h.property hslot hbody key⟩
    simp only [body_eq_ok hslot hbody]
    rfl

/-! ### Adding slots -/

/-- `Grown`, into a closed arena. -/
structure Kept (a a' : Arena) : Prop extends a.Grown a' where
  closed : a'.Closed

instance : IsTrans Arena Kept where
  trans _ _ _ hab hbc := ⟨hab.toGrown.trans hbc.toGrown, hbc.closed⟩

/-- `Kept`, and every live slot is as it was. -/
structure Extended (a a' : Arena) : Prop extends a.Kept a' where
  get?_eq : ∀ {id slot}, a.get? id = some slot → a'.get? id = some slot

instance : IsTrans Arena Extended where
  trans _ _ _ hab hbc := ⟨trans_of Kept hab.toKept hbc.toKept, fun h => hbc.get?_eq (hab.get?_eq h)⟩

theorem Closed.kept_refl (hclosed : a.Closed) (h : a.Accounted) : a.Kept a :=
  ⟨h.grown_refl, hclosed⟩

theorem Closed.extended_refl (hclosed : a.Closed) (h : a.Accounted) : a.Extended a :=
  ⟨hclosed.kept_refl h, fun hslot => hslot⟩

theorem Allocated.get?_of_get? {slot s : Slot} {other : SlotId} (h : a.Allocated id slot a')
    (hs : a.get? other = some s) : a'.get? other = some s :=
  (h.get?_of_isLive (isLive_of_get? hs)).trans hs

theorem Closed.extended {slot : Slot} (hclosed : a.Closed) (h : a.Allocated id slot a')
    (hvalue : slot.value.ValidIn a')
    (hmember : ∀ body, slot.body = some body → ∀ member ∈ body.members, a.isLive member) :
    a.Extended a' where
  toGrown := h.grown
  get?_eq := h.get?_of_get?
  closed := by
    constructor
    · intro other s hs
      rw [h.get?_eq] at hs
      split at hs
      · obtain rfl := Option.some.inj hs
        exact hvalue
      · exact h.grown.value_validIn (hclosed.value hs)
    · intro other s body hs hbody member hmem
      rw [h.get?_eq] at hs
      split at hs
      · obtain rfl := Option.some.inj hs
        exact h.grown.isLive (hmember body hbody member hmem)
      · exact h.grown.isLive (hclosed.member hs hbody member hmem)

theorem Allocated.isLive {slot : Slot} (h : a.Allocated id slot a') : a'.isLive id :=
  isLive_of_get? ((h.get?_eq id).trans (if_pos rfl))

theorem Closed.extended_alloc (hclosed : a.Closed) {v : Value} (hv : v.ValidIn a)
    (h : a.Allocated id { value := v } a') : a.Extended a' :=
  hclosed.extended h (h.grown.value_validIn hv) fun _ hbody => by cases hbody

theorem Closed.extended_allocBody (hclosed : a.Closed) {body : Body}
    (hbody : ∀ member ∈ body.members, a.isLive member)
    (h : a.Allocated id { value := body.valueAt id, body := some body } a') : a.Extended a' := by
  refine hclosed.extended h ?_ fun b hb => ?_
  · show a'.shape? id = some body.shape
    simp only [shape?, (h.get?_eq id).trans (if_pos rfl), Option.bind_some, Option.map_some]
  · obtain rfl := Option.some.inj hb
    exact hbody

end Arena

namespace ArenaM

open Arena (Extended)

variable {a : Arena}

/-- An allocation adds a slot, or fails for want of slots. -/
theorem endsVia_allocWith (h : a.Accounted) (hclosed : a.Closed) {content : SlotId → Slot}
    (hnew : ∀ id a', a.Allocated id (content id) a' → a.Extended a') :
    EndsVia Extended (allocWith content) a (fun id a' => a'.isLive id) (·.isFatal) := by
  refine (h.ends_allocWith content).mono (fun id a' h' => ⟨hnew id a' h'.2, h'.2.isLive⟩) ?_
  rintro e _ ⟨-, rfl, rfl⟩
  exact ⟨hclosed.extended_refl h, rfl⟩

theorem endsVia_alloc (h : a.Accounted) (hclosed : a.Closed) {v : Value} (hv : v.ValidIn a) :
    EndsVia Extended (alloc v) a (fun id a' => a'.isLive id) (·.isFatal) :=
  endsVia_allocWith h hclosed fun _ _ => hclosed.extended_alloc hv

theorem endsVia_allocBody (h : a.Accounted) (hclosed : a.Closed) {body : Body}
    (hbody : ∀ member ∈ body.members, a.isLive member) :
    EndsVia Extended (allocBody body) a (fun id a' => a'.isLive id) (·.isFatal) :=
  endsVia_allocWith h hclosed fun _ _ => hclosed.extended_allocBody hbody

theorem get_eq_ok {slot : SlotId} (h : a.isLive slot) : ∃ s, a.get slot = .ok s := by
  obtain ⟨s, hs⟩ := Arena.get?_of_isLive h
  exact ⟨s, by simp only [Arena.get, hs]⟩

theorem endsVia_bindingSlot (h : a.Accounted) (hclosed : a.Closed) {o : Outcome}
    (ho : o.ValidIn a) :
    EndsVia Extended (bindingSlot o) a (fun id a' => a'.isLive id) (·.isFatal) := by
  cases o with
  | fresh value => exact endsVia_alloc h hclosed ho
  | aliased slot =>
    obtain ⟨s, hs⟩ := Arena.get?_of_isLive ho
    exact endsVia_bind_of_ok (read_eq_ok (Arena.value_eq_ok hs))
      (endsVia_alloc h hclosed (hclosed.value hs))
  | minted slot =>
    obtain ⟨s, hs⟩ := get_eq_ok ho
    exact endsVia_bind_of_ok (read_eq_ok hs) (endsVia_pure (hclosed.extended_refl h) ho)

theorem endsVia_memberSlot (h : a.Accounted) (hclosed : a.Closed) {o : Outcome}
    (ho : o.ValidIn a) :
    EndsVia Extended (memberSlot o) a (fun r a' => a'.isLive r.1) (·.isFatal) := by
  cases o with
  | fresh value =>
    exact (endsVia_alloc h hclosed ho).bind fun id a' hext hid =>
      endsVia_pure (hext.closed.extended_refl hext.accounted) hid
  | aliased slot =>
    obtain ⟨s, hs⟩ := get_eq_ok ho
    exact endsVia_bind_of_ok (read_eq_ok hs) (endsVia_pure (hclosed.extended_refl h) ho)
  | minted slot =>
    obtain ⟨s, hs⟩ := get_eq_ok ho
    exact endsVia_bind_of_ok (read_eq_ok hs) (endsVia_pure (hclosed.extended_refl h) ho)

theorem endsVia_elementSlots (h : a.Accounted) (hclosed : a.Closed) {elements : List Outcome}
    (hvalid : ∀ element ∈ elements, element.ValidIn a) :
    EndsVia Extended (elementSlots elements) a (fun r a' => ∀ slot ∈ r, a'.isLive slot)
      (·.isFatal) := by
  induction elements generalizing a with
  | nil => exact endsVia_pure (hclosed.extended_refl h) (List.forall_mem_nil _)
  | cons element rest ih =>
    refine (endsVia_memberSlot h hclosed (hvalid _ List.mem_cons_self)).bind
      fun r a₁ hext₁ hr => ?_
    have hrest := ih hext₁.accounted hext₁.closed fun other hother =>
      hext₁.toGrown.outcome_validIn (hvalid other (List.mem_cons_of_mem _ hother))
    apply hrest.bind
    intro slots a₂ hext₂ hslots
    apply endsVia_pure (hext₂.closed.extended_refl hext₂.accounted)
    intro slot hslot
    rcases List.mem_cons.mp hslot with rfl | hslot
    · exact hext₂.toGrown.isLive hr
    · exact hslots slot hslot

theorem endsVia_namedSlots (h : a.Accounted) (hclosed : a.Closed)
    {members : List (String × Outcome)} (hvalid : ∀ member ∈ members, member.2.ValidIn a) :
    EndsVia Extended (namedSlots members) a (fun r a' => ∀ entry ∈ r, a'.isLive entry.2)
      (·.isFatal) := by
  rw [namedSlots_eq_map]
  refine EndsVia.map (endsVia_elementSlots h hclosed fun element helement => ?_)
    fun slots a' _ hslots entry hentry => hslots _ (List.of_mem_zip hentry).2
  obtain ⟨member, hmember, rfl⟩ := List.mem_map.mp helement
  exact hvalid member hmember

/-- **Building a container** from valid members adds slots and nothing else. -/
theorem endsVia_build (h : a.Accounted) (hclosed : a.Closed) {container : NewContainer}
    (hvalid : container.ValidIn a) :
    EndsVia Extended (build container) a (fun id a' => a'.isLive id) (·.isFatal) := by
  cases container with
  | object members =>
    apply (endsVia_namedSlots h hclosed hvalid).bind
    intro slots a' hext hslots
    apply endsVia_allocBody hext.accounted hext.closed
    intro member hmember
    obtain ⟨entry, hentry, rfl⟩ := List.mem_map.mp (NameTable.mem_slots_ofList hmember)
    exact hslots entry hentry
  | array elements =>
    apply (endsVia_elementSlots h hclosed hvalid).bind
    intro slots a' hext hslots
    apply endsVia_allocBody hext.accounted hext.closed
    intro member hmember
    rcases Body.mem_members_iff.mp hmember with ⟨e, he, hmember⟩ | hmember
    · obtain rfl := Option.some.inj he
      exact hslots member (Elements.mem_slots_ofList hmember)
    · cases hmember
  | function parameters code scope properties => exact endsVia_allocBody h hclosed hvalid

end ArenaM

/-! ### Writing -/

/-- A reference in the arena that leads nowhere is the cause of the error. -/
def ArenaError.isInternal : ArenaError → Bool
  | danglingSlot _ | notAContainer _ => true
  | _ => false

theorem ArenaError.not_isInternal_of_isFatal {e : ArenaError} (h : e.isFatal) :
    ¬ e.isInternal := by
  cases e with
  | exhausted capacity => exact Bool.false_ne_true
  | _ => cases h

theorem Arena.Closed.kept_modifySlot {a : Arena} (hclosed : a.Closed) (h : a.Accounted)
    {id : SlotId} {f : Slot → Slot}
    (hshape : ∀ s, (f s).body.map Body.shape = s.body.map Body.shape)
    (hvalue : ∀ s, a.get? id = some s → (f s).value.ValidIn a)
    (hmember : ∀ s body, a.get? id = some s → (f s).body = some body →
      ∀ member ∈ body.members, a.isLive member) :
    a.Kept (a.modifySlot id f) := by
  have hgrown := h.grown_modifySlot id hshape
  refine ⟨hgrown, ?_, ?_⟩
  · intro other s hs
    rw [get?_modifySlot] at hs
    split at hs
    · next heq =>
      obtain ⟨s', hs', rfl⟩ := Option.map_eq_some_iff.mp hs
      exact hgrown.value_validIn (hvalue s' (heq ▸ hs'))
    · exact hgrown.value_validIn (hclosed.value hs)
  · intro other s body hs hbody member hmem
    rw [get?_modifySlot] at hs
    split at hs
    · next heq =>
      obtain ⟨s', hs', rfl⟩ := Option.map_eq_some_iff.mp hs
      exact hgrown.isLive (hmember s' body (heq ▸ hs') hbody member hmem)
    · exact hgrown.isLive (hclosed.member hs hbody member hmem)

theorem Arena.Closed.kept_setValue {a : Arena} (hclosed : a.Closed) (h : a.Accounted) {id : SlotId}
    {v : Value} (hv : v.ValidIn a) : a.Kept (a.modifySlot id ({ · with value := v })) :=
  hclosed.kept_modifySlot h (fun _ => rfl) (fun _ _ => hv)
    fun _ _ hs hbody => hclosed.member hs hbody

theorem Arena.Closed.kept_modifyBody {a : Arena} (hclosed : a.Closed) (h : a.Accounted)
    {owner : SlotId} {s : Slot} {body : Body} {f : Body → Body} (hs : a.get? owner = some s)
    (hbody : s.body = some body) (hshape : ∀ b, (f b).shape = b.shape)
    (hmember : ∀ member ∈ (f body).members, a.isLive member) :
    a.Kept (a.modifySlot owner fun s => { s with body := s.body.map f }) := by
  refine hclosed.kept_modifySlot h (fun s' => Body.map_shape_map hshape s'.body)
    (fun s' hs' => show s'.value.ValidIn a from hclosed.value hs') fun s' body' hs' hbody' => ?_
  obtain rfl := Option.some.inj (hs.symm.trans hs')
  rw [hbody, Option.map_some] at hbody'
  obtain rfl := Option.some.inj hbody'
  exact hmember

namespace ArenaM

open Arena (Kept)

variable {a : Arena}

theorem endsVia_setValue (h : a.Accounted) (hclosed : a.Closed) {slot : SlotId} {v : Value}
    (hslot : a.isLive slot) (hv : v.ValidIn a) :
    EndsVia Kept (setValue slot v) a (fun _ _ => True) (¬ ·.isInternal) := by
  obtain ⟨s, hs⟩ := get_eq_ok hslot
  exact endsVia_bind_of_ok (read_eq_ok hs) (endsVia_modify (hclosed.kept_setValue h hv) trivial)

theorem endsVia_modifyBody (h : a.Accounted) (hclosed : a.Closed) {owner : SlotId} {s : Slot}
    {body : Body} {f : Body → Body} (hs : a.get? owner = some s) (hbody : s.body = some body)
    (hshape : ∀ b, (f b).shape = b.shape)
    (hmember : ∀ member ∈ (f body).members, a.isLive member) :
    EndsVia Kept (modifyBody owner f) a (fun _ _ => True) (¬ ·.isInternal) :=
  endsVia_bind_of_ok (read_eq_ok (Arena.body_eq_ok hs hbody))
    (endsVia_modify (hclosed.kept_modifyBody h hs hbody hshape hmember) trivial)

theorem arrayLength_error {v : Value} {e : ArenaError} (h : arrayLength v = .error e) :
    e = .invalidArrayLength v.toNumber := by
  unfold arrayLength at h
  split at h
  · split at h <;> cases h
    rfl
  · cases h
    rfl

theorem endsVia_setLength (h : a.Accounted) (hclosed : a.Closed) {owner : SlotId} {s : Slot}
    {body : Body} (hs : a.get? owner = some s) (hbody : s.body = some body) {o : Outcome}
    (ho : o.ValidIn a) :
    EndsVia Kept (setLength owner o) a (fun _ _ => True) (¬ ·.isInternal) := by
  obtain ⟨v, hv, -⟩ := hclosed.resolve ho
  apply endsVia_bind_of_ok (read_eq_ok hv)
  cases hlength : arrayLength v with
  | error e =>
    apply endsVia_bind_of_error (read_eq_error rfl) (hclosed.kept_refl h)
    rw [arrayLength_error hlength]
    exact Bool.false_ne_true
  | ok length =>
    apply endsVia_bind_of_ok (read_eq_ok rfl)
    exact endsVia_modifyBody h hclosed hs hbody (Body.shape_mapElements _)
      fun member hmember => hclosed.member hs hbody member (Body.mem_members_setLength hmember)

theorem endsVia_setPlace (h : a.Accounted) (hclosed : a.Closed) {owner : SlotId} {s : Slot}
    {body : Body} (hs : a.get? owner = some s) (hbody : s.body = some body) (place : Place)
    {o : Outcome} (ho : o.ValidIn a) :
    EndsVia Kept (setPlace owner place o) a (fun _ _ => True) (¬ ·.isInternal) := by
  apply endsVia_bind_of_ok (read_eq_ok (Arena.body_eq_ok hs hbody))
  cases hslot : body.slotAt? place with
  | some slot =>
    obtain ⟨v, hv, hvalid⟩ := hclosed.resolve ho
    have hlive := hclosed.member hs hbody slot (Body.mem_members_of_slotAt? hslot)
    exact endsVia_bind_of_ok (read_eq_ok hv) (endsVia_setValue h hclosed hlive hvalid)
  | none =>
    have hnew : EndsVia Kept (memberSlot o) a (fun r a' => a.Extended a' ∧ a'.isLive r.1)
        (¬ ·.isInternal) :=
      (endsVia_memberSlot h hclosed ho).mono (fun _ hext => hext.toKept)
        (fun _ _ hext hr => ⟨hext, hr⟩) (fun _ he => ArenaError.not_isInternal_of_isFatal he)
    apply hnew.bind
    rintro r a' _ ⟨hext, hr⟩
    refine endsVia_modifyBody hext.accounted hext.closed (hext.get?_eq hs) hbody
      (Body.shape_putSlot place _) fun member hmember => ?_
    rcases Body.mem_members_putSlot hmember with rfl | hold
    · exact hr
    · exact hext.toGrown.isLive (hclosed.member hs hbody member hold)

/-- **Writing a property** of a valid base keeps the arena closed. -/
theorem endsVia_setProperty (h : a.Accounted) (hclosed : a.Closed) {base : Value} (key : String)
    {o : Outcome} (hbase : base.ValidIn a) (ho : o.ValidIn a) :
    EndsVia Kept (setProperty base key o) a (fun _ _ => True) (¬ ·.isInternal) := by
  unfold setProperty
  cases howner : base.handle? with
  | none => exact endsVia_pure (hclosed.kept_refl h) trivial
  | some owner =>
    obtain ⟨s, body, hs, hbody⟩ := hbase.body howner
    apply endsVia_bind_of_ok (read_eq_ok (Arena.body_eq_ok hs hbody))
    cases body.place key with
    | length => exact endsVia_setLength h hclosed hs hbody ho
    | element index => exact endsVia_setPlace h hclosed hs hbody _ ho
    | property name => exact endsVia_setPlace h hclosed hs hbody _ ho

end ArenaM

end SlotScript
