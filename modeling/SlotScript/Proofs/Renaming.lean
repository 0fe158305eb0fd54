import SlotScript.Arena.Collect
import SlotScript.Proofs.Members
import SlotScript.Value.Operator

/-!
# Renaming of slots

A renaming sends slot ids to slot ids. Every change of a table, of elements or of a body commutes with
a renaming, and every conversion and every operator gives the same on renamed values. Only where
handles are compared must the renaming keep them apart (`strictEq_rename`).
-/

namespace SlotScript

section

variable (ρ : SlotId → SlotId)

def Value.rename : Value → Value
  | .compound shape owner => .compound shape (ρ owner)
  | v => v

def Outcome.rename : Outcome → Outcome
  | .fresh value => .fresh (value.rename ρ)
  | .aliased slot => .aliased (ρ slot)
  | .minted slot => .minted (ρ slot)

def Reference.rename : Reference → Reference
  | .slot id => .slot (ρ id)
  | .handle id => .handle (ρ id)

def NameTable.rename (t : NameTable) : NameTable := ⟨t.entries.map (Prod.map id ρ)⟩

def Elements.rename (e : Elements) : Elements := ⟨e.cells.map (Prod.map id ρ), e.length⟩

def Content.rename : Content → Content
  | .object => .object
  | .array elements => .array (elements.rename ρ)
  | .function parameters code scope => .function parameters code scope

def Body.rename (b : Body) : Body := ⟨b.content.rename ρ, b.properties.rename ρ⟩

end

variable {ρ ρ' : SlotId → SlotId}

theorem lookup_map_snd {α β γ : Type} [BEq α] (f : β → γ) (entries : List (α × β)) (key : α) :
    (entries.map (Prod.map id f)).lookup key = (entries.lookup key).map f := by
  induction entries with
  | nil => rfl
  | cons entry rest ih =>
    obtain ⟨first, x⟩ := entry
    rw [List.map_cons, Prod.map_apply, id, List.lookup_cons, List.lookup_cons, ih]
    cases key == first <;> rfl

/-! ### Tables of names -/

namespace NameTable

theorem get?_rename (t : NameTable) (name : String) :
    (t.rename ρ).get? name = (t.get? name).map ρ := lookup_map_snd ρ t.entries name

theorem getThenInsert_go_rename (name : String) (slot : SlotId) (entries : List (String × SlotId)) :
    (getThenInsert.go name (ρ slot) (entries.map (Prod.map id ρ))).2 =
      (getThenInsert.go name slot entries).2.map (Prod.map id ρ) := by
  induction entries with
  | nil => rfl
  | cons entry rest ih =>
    obtain ⟨first, other⟩ := entry
    rw [List.map_cons, Prod.map_apply, id]
    unfold getThenInsert.go
    by_cases hname : first = name
    · simp only [if_pos hname]
      rfl
    · simp only [if_neg hname]
      exact congrArg ((first, ρ other) :: ·) ih

theorem insert_rename (t : NameTable) (name : String) (slot : SlotId) :
    (t.rename ρ).insert name (ρ slot) = (t.insert name slot).rename ρ :=
  congrArg NameTable.mk (getThenInsert_go_rename name slot t.entries)

theorem getThenErase_rename (t : NameTable) (name : String) :
    (t.rename ρ).getThenErase name =
      ((t.getThenErase name).1.map ρ, (t.getThenErase name).2.rename ρ) := by
  simp only [getThenErase, get?_rename, Prod.mk.injEq, true_and]
  simp only [rename, List.filter_map]
  rfl

theorem ofList_rename (entries : List (String × SlotId)) :
    ofList (entries.map (Prod.map id ρ)) = (ofList entries).rename ρ := by
  have hfold (t : NameTable) :
      (entries.map (Prod.map id ρ)).foldl (fun t entry => t.insert entry.1 entry.2) (t.rename ρ) =
        (entries.foldl (fun t entry => t.insert entry.1 entry.2) t).rename ρ := by
    induction entries generalizing t with
    | nil => rfl
    | cons entry rest ih =>
      obtain ⟨name, slot⟩ := entry
      rw [List.map_cons, List.foldl_cons, List.foldl_cons, ← ih, ← insert_rename]
      rfl
  exact hfold ∅

end NameTable

/-! ### Elements -/

namespace Elements

theorem get?_rename (e : Elements) (index : Nat) :
    (e.rename ρ).get? index = (e.get? index).map ρ := lookup_map_snd ρ e.cells index

theorem insertCell_rename (index : Nat) (slot : SlotId) (cells : List (Nat × SlotId)) :
    insertCell index (ρ slot) (cells.map (Prod.map id ρ)) =
      (insertCell index slot cells).map (Prod.map id ρ) := by
  induction cells with
  | nil => rfl
  | cons cell rest ih =>
    rw [List.map_cons]
    unfold insertCell
    by_cases hlt : index < cell.1
    · rw [if_pos hlt]
      exact if_pos hlt
    · by_cases heq : index = cell.1
      · rw [if_neg hlt, if_pos heq]
        exact (if_neg hlt).trans (if_pos heq)
      · rw [if_neg hlt, if_neg heq, List.map_cons, ← ih]
        exact (if_neg hlt).trans (if_neg heq)

theorem set_rename (e : Elements) (index : Nat) (slot : SlotId) :
    (e.rename ρ).set index (ρ slot) = (e.set index slot).rename ρ :=
  congrArg (Elements.mk · _) (insertCell_rename index slot e.cells)

theorem push_rename (e : Elements) (slot : SlotId) :
    (e.rename ρ).push (ρ slot) = (e.push slot).rename ρ := by
  unfold push
  by_cases hlength : e.length < maxArrayLength
  · rw [if_pos hlength]
    exact (if_pos hlength).trans (set_rename e e.length slot)
  · rw [if_neg hlength]
    exact if_neg hlength

theorem setLength_rename (e : Elements) (length : Nat) :
    (e.rename ρ).setLength length = (e.setLength length).rename ρ := by
  by_cases hlength : length < e.length
  · simp only [setLength, rename, if_pos hlength, List.filter_map]
    rfl
  · simp only [setLength, rename, hlength, if_false]

theorem ofList_rename (slots : List SlotId) :
    ofList (slots.map ρ) = (ofList slots).rename ρ := by
  have hfold (e : Elements) : (slots.map ρ).foldl push (e.rename ρ) = (slots.foldl push e).rename ρ := by
    induction slots generalizing e with
    | nil => rfl
    | cons slot rest ih => rw [List.map_cons, List.foldl_cons, List.foldl_cons, push_rename, ih]
  exact hfold ∅

end Elements

/-! ### Bodies -/

namespace Body

@[simp] theorem shape_rename (b : Body) : (b.rename ρ).shape = b.shape := by
  obtain ⟨content, _⟩ := b
  cases content <;> rfl

theorem elements?_rename (b : Body) :
    (b.rename ρ).elements? = b.elements?.map (Elements.rename ρ) := by
  obtain ⟨content, _⟩ := b
  cases content <;> rfl

theorem length_rename (b : Body) : (b.rename ρ).length = b.length := by
  unfold length
  rw [elements?_rename]
  cases b.elements? <;> rfl

theorem place_rename (b : Body) (key : String) : (b.rename ρ).place key = b.place key := by
  unfold place
  rw [elements?_rename]
  cases b.elements? with
  | none => rfl
  | some e => cases arrayIndex? key <;> rfl

theorem slotAt?_rename (b : Body) (place : Place) :
    (b.rename ρ).slotAt? place = (b.slotAt? place).map ρ := by
  cases place with
  | element index =>
    simp only [slotAt?, elements?_rename]
    cases b.elements? with
    | none => rfl
    | some e => exact Elements.get?_rename e index
  | length => rfl
  | property name => exact NameTable.get?_rename b.properties name

theorem property_rename (b : Body) (key : String) :
    (b.rename ρ).property key = (b.property key).rename ρ := by
  unfold property
  rw [place_rename]
  cases b.place key with
  | length => exact congrArg (fun n => Outcome.fresh (.number (.ofNat n))) b.length_rename
  | element index =>
    dsimp only
    rw [slotAt?_rename]
    cases b.slotAt? (.element index) <;> rfl
  | property name =>
    dsimp only
    rw [slotAt?_rename]
    cases b.slotAt? (.property name) <;> rfl

theorem mapElements_rename {f : Elements → Elements} (hf : ∀ e, f (e.rename ρ) = (f e).rename ρ)
    (b : Body) : (b.rename ρ).mapElements f = (b.mapElements f).rename ρ := by
  obtain ⟨content, properties⟩ := b
  cases content with
  | array elements => exact congrArg (fun e => Body.mk (.array e) _) (hf elements)
  | object => rfl
  | function parameters code scope => rfl

theorem putSlot_rename (place : Place) (slot : SlotId) (b : Body) :
    (b.rename ρ).putSlot place (ρ slot) = (b.putSlot place slot).rename ρ := by
  cases place with
  | element index =>
    obtain ⟨content, properties⟩ := b
    cases content with
    | array elements =>
      exact congrArg (fun e => Body.mk (.array e) _) (Elements.set_rename elements index slot)
    | object => rfl
    | function parameters code scope => rfl
  | length => rfl
  | property name =>
    exact congrArg (Body.mk _) (NameTable.insert_rename b.properties name slot)

end Body

/-! ### Values -/

namespace Value

@[simp] theorem kind_rename (v : Value) : (v.rename ρ).kind = v.kind := by cases v <;> rfl

@[simp] theorem isNullish_rename (v : Value) : (v.rename ρ).isNullish = v.isNullish := by
  cases v <;> rfl

@[simp] theorem isText_rename (v : Value) : (v.rename ρ).isText = v.isText := by cases v <;> rfl

@[simp] theorem handle?_rename (v : Value) : (v.rename ρ).handle? = v.handle?.map ρ := by
  cases v <;> rfl

@[simp] theorem text?_rename (v : Value) : (v.rename ρ).text? = v.text? := by cases v <;> rfl

@[simp] theorem toNumber_rename (v : Value) : (v.rename ρ).toNumber = v.toNumber := by
  cases v <;> rfl

@[simp] theorem toBoolean_rename (v : Value) : (v.rename ρ).toBoolean = v.toBoolean := by
  cases v <;> rfl

@[simp] theorem toText_rename (v : Value) : (v.rename ρ).toText = v.toText := by
  cases v with
  | compound shape owner => cases shape <;> rfl
  | _ => rfl

@[simp] theorem rank?_rename (v : Value) : (v.rename ρ).rank? = v.rank? := by cases v <;> rfl

theorem rename_of_handle?_eq_none {v : Value} (h : v.handle? = none) : v.rename ρ = v := by
  cases v with
  | compound shape owner => cases h
  | _ => rfl

@[simp] theorem compare?_rename (v w : Value) :
    (v.rename ρ).compare? (w.rename ρ) = v.compare? w := by
  unfold compare?
  rw [rank?_rename, rank?_rename]

/-- Strict equality survives a renaming that keeps the compared handles apart. -/
theorem strictEq_rename {v w : Value}
    (hinj : ∀ i j, v.handle? = some i → w.handle? = some j → ρ i = ρ j → i = j) :
    (v.rename ρ).strictEq (w.rename ρ) = v.strictEq w := by
  cases v with
  | compound shape i =>
    cases w with
    | compound shape' j =>
      have hij : ρ i = ρ j ↔ i = j := ⟨hinj i j rfl rfl, congrArg ρ⟩
      simp only [rename, strictEq, compound.injEq, hij]
    | _ => rfl
  | _ => cases w <;> rfl

theorem withoutBoolean_rename (v : Value) :
    (v.rename ρ).withoutBoolean = v.withoutBoolean.rename ρ := by cases v <;> rfl

theorem looseEq_rename {v w : Value}
    (hinj : ∀ i j, v.handle? = some i → w.handle? = some j → ρ i = ρ j → i = j) :
    (v.rename ρ).looseEq (w.rename ρ) = v.looseEq w := by
  unfold looseEq
  rw [kind_rename, kind_rename, isNullish_rename, isNullish_rename, strictEq_rename hinj,
    withoutBoolean_rename, withoutBoolean_rename]
  cases v.withoutBoolean <;> cases w.withoutBoolean <;> rfl

theorem primitiveProperty_rename (v : Value) (key : String) :
    (v.rename ρ).primitiveProperty key = (v.primitiveProperty key).rename ρ := by
  rw [rename_of_handle?_eq_none (handle?_primitiveProperty v key)]
  unfold primitiveProperty
  rw [text?_rename]

end Value

theorem UnaryOp.apply_rename (op : UnaryOp) (v : Value) :
    op.apply (v.rename ρ) = (op.apply v).rename ρ := by
  rw [Value.rename_of_handle?_eq_none (op.handle?_apply v)]
  cases op <;> simp only [apply, Value.toBoolean_rename, Value.toNumber_rename]

theorem BinaryOp.apply_rename (op : BinaryOp) {v w : Value}
    (hinj : ∀ i j, v.handle? = some i → w.handle? = some j → ρ i = ρ j → i = j) :
    op.apply (v.rename ρ) (w.rename ρ) = (op.apply v w).rename ρ := by
  rw [Value.rename_of_handle?_eq_none (op.handle?_apply v w)]
  cases op <;>
    simp only [apply, Value.add, Value.lt, Value.gt, Value.le, Value.ge, Value.isText_rename,
      Value.toText_rename, Value.toNumber_rename, Value.compare?_rename, Value.strictEq_rename hinj,
      Value.looseEq_rename hinj]

/-! ### Renamings that agree -/

theorem Value.rename_congr {v : Value} (h : ∀ owner, v.handle? = some owner → ρ' owner = ρ owner) :
    v.rename ρ' = v.rename ρ := by
  cases v with
  | compound shape owner => exact congrArg (Value.compound shape) (h owner rfl)
  | _ => rfl

theorem map_snd_congr {α : Type} {entries : List (α × SlotId)}
    (h : ∀ slot ∈ entries.map (·.2), ρ' slot = ρ slot) :
    entries.map (Prod.map id ρ') = entries.map (Prod.map id ρ) := by
  apply List.map_congr_left
  intro entry hentry
  exact Prod.ext rfl (h entry.2 (List.mem_map_of_mem hentry))

theorem NameTable.rename_congr {t : NameTable} (h : ∀ slot ∈ t.slots, ρ' slot = ρ slot) :
    t.rename ρ' = t.rename ρ := congrArg NameTable.mk (map_snd_congr h)

theorem Elements.rename_congr {e : Elements} (h : ∀ slot ∈ e.slots, ρ' slot = ρ slot) :
    e.rename ρ' = e.rename ρ := congrArg (Elements.mk · _) (map_snd_congr h)

theorem Body.rename_congr {b : Body} (h : ∀ slot ∈ b.members, ρ' slot = ρ slot) :
    b.rename ρ' = b.rename ρ := by
  have hproperties : b.properties.rename ρ' = b.properties.rename ρ :=
    NameTable.rename_congr fun slot hslot => h slot (mem_members_iff.mpr (.inr hslot))
  obtain ⟨content, properties⟩ := b
  cases content with
  | array elements =>
    have helements : elements.rename ρ' = elements.rename ρ :=
      Elements.rename_congr fun slot hslot => h slot (mem_members_iff.mpr (.inl ⟨_, rfl, hslot⟩))
    simp only [rename, Content.rename, helements, hproperties]
  | object => exact congrArg (Body.mk _) hproperties
  | function parameters code scope => exact congrArg (Body.mk _) hproperties

end SlotScript
