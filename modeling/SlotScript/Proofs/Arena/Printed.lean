import SlotScript.Proofs.Arena.Mirrored
import SlotScript.Proofs.Arena.Nesting

/-!
# Mirrored arenas print alike

The text of a value says nothing about slot ids: only which containers are inside themselves. A
renaming that keeps the live slots apart keeps that too, so a value and its image have the same text
(`Mirrored.display`).
-/

namespace SlotScript

/-! ### Bodies -/

section

variable (ρ : SlotId → SlotId) (print : SlotId → String)

theorem Elements.items_rename (cells : List (Nat × SlotId)) (length start : Nat) :
    items print length start (cells.map (Prod.map id ρ)) =
      items (fun slot => print (ρ slot)) length start cells := by
  induction cells generalizing start with
  | nil => rfl
  | cons cell rest ih =>
    obtain ⟨index, slot⟩ := cell
    rw [List.map_cons, Prod.map_apply, id, items, items, ih (nextIndex index)]

theorem NameTable.items_rename (t : NameTable) :
    (t.rename ρ).items print = t.items fun slot => print (ρ slot) := by
  unfold items rename
  rw [List.map_map]
  rfl

/-- The text of a renamed body is that of the body, with the renaming in front of the printer. -/
theorem Body.print_rename (b : Body) : (b.rename ρ).print print = b.print fun slot => print (ρ slot) := by
  obtain ⟨content, properties⟩ := b
  cases content with
  | object => simp only [Body.print, Body.rename, Content.rename, NameTable.items_rename]
  | array elements =>
    simp only [Body.print, Body.rename, Content.rename, Elements.rename, NameTable.items_rename,
      Elements.items_rename]
  | function parameters code scope => rfl

end

namespace Arena

/-! ### Values -/

variable {p : Twin Arena}

/-- Whether a container is inside itself does not depend on the ids. -/
theorem Mirrored.mem_image_iff (h : Mirrored p) {opened : List SlotId} {owner : SlotId}
    (hopened : ∀ id ∈ opened, p.swept.isLive id) (howner : p.swept.isLive owner) :
    p.image owner ∈ opened.map p.image ↔ owner ∈ opened := by
  constructor
  · intro hmem
    obtain ⟨id, hid, heq⟩ := List.mem_map.mp hmem
    rwa [← h.injective (hopened id hid) howner heq]
  · exact List.mem_map_of_mem

theorem Mirrored.print (h : Mirrored p) {v : Value} (hv : v.ValidIn p.swept)
    {opened : List SlotId} (hopened : ∀ id ∈ opened, p.swept.isLive id) :
    p.full.print (opened.map p.image) (v.rename p.image) = p.swept.print opened v := by
  induction opened, v using print.induct p.swept with
  | case1 opened s => exact print_of_handle?_eq_none rfl _ _ _ _
  | case2 opened shape owner hmem =>
    rw [print_of_mem shape hmem]
    exact print_of_mem shape ((h.mem_image_iff hopened (Value.ValidIn.isLive hv rfl)).mpr hmem)
  | case3 opened shape owner hmem e hbody =>
    obtain ⟨s, body, hs, hbody'⟩ := Value.ValidIn.body hv rfl
    cases hbody.symm.trans (Arena.body_eq_ok hs hbody')
  | case4 opened shape owner hmem body hbody ih =>
    have howner := isLive_of_body hbody
    obtain ⟨s, hs, hslot⟩ := get?_of_body hbody
    have himage : p.image owner ∉ opened.map p.image := fun hmem' =>
      hmem ((h.mem_image_iff hopened howner).mp hmem')
    rw [print_of_body shape hmem hbody]
    apply (print_of_body shape himage (h.body_eq_ok hs hslot)).trans
    rw [Body.print_rename]
    apply Body.print_congr
    intro member hmember
    obtain ⟨t, ht⟩ := get?_of_isLive (h.closed.member hs hslot member (body.shown_subset_members hmember))
    rw [printMember_of_value (h.value_eq_ok ht), printMember_of_value (Arena.value_eq_ok ht)]
    exact ih _ (h.closed.value ht) (List.forall_mem_cons.mpr ⟨howner, hopened⟩)
  | case5 opened v htext hcompound =>
    cases v with
    | compound shape owner => exact absurd rfl (hcompound shape owner)
    | _ => exact print_of_handle?_eq_none rfl _ _ _ _

/-- **A value and its image have the same text.** -/
theorem Mirrored.display (h : Mirrored p) {v : Value} (hv : v.ValidIn p.swept) :
    p.full.display (v.rename p.image) = p.swept.display v := by
  have hnone : ∀ id ∈ ([] : List SlotId), p.swept.isLive id := List.forall_mem_nil _
  have hprint : p.full.print [] (v.rename p.image) = p.swept.print [] v := h.print hv hnone
  cases v with
  | text s => rfl
  | _ => exact hprint

end Arena

end SlotScript
