import SlotScript.Proofs.Arena.Closed

/-!
# What stays

`Arena.Keeps a roots a'`: going from `a` to `a'` keeps what `roots` lead to. Adding slots keeps
everything (`Extended.keeps`), and a collection keeps what its roots lead to (`keeps_collect`). What is
kept is still reached (`Keeps.reached`), so steps that each keep their roots can be chained, as long as
the roots do not get fewer (`Keeps.trans`).
-/

namespace SlotScript.Arena

/-- What `roots` lead to in `a` is the same in `a'`: the values of the slots, and whole slots, bodies
included, where a handle leads. -/
structure Keeps (a : Arena) (roots : List Reference) (a' : Arena) : Prop where
  value_eq : ∀ {id}, a.Reached roots (.slot id) →
    (a'.get? id).map Slot.value = (a.get? id).map Slot.value
  get?_eq : ∀ {id}, a.Reached roots (.handle id) → a'.get? id = a.get? id

variable {a a' a'' : Arena} {roots roots' : List Reference}

theorem Keeps.refl (a : Arena) (roots : List Reference) : a.Keeps roots a :=
  ⟨fun _ => rfl, fun _ => rfl⟩

theorem Keeps.get?_value (h : a.Keeps roots a') {id : SlotId} {slot : Slot}
    (hid : a.Reached roots (.slot id)) (hslot : a.get? id = some slot) :
    ∃ slot', a'.get? id = some slot' ∧ slot'.value = slot.value := by
  have hvalue := h.value_eq hid
  rw [hslot, Option.map_some] at hvalue
  exact Option.map_eq_some_iff.mp hvalue

theorem Keeps.isLive (h : a.Keeps roots a') {r : Reference} (hr : a.Reached roots r) :
    a'.isLive r.id := by
  cases r with
  | slot id =>
    obtain ⟨slot, hslot⟩ := hr.get?
    obtain ⟨slot', hslot', -⟩ := h.get?_value hr hslot
    exact isLive_of_get? hslot'
  | handle id =>
    have hlive : a.isLive id := hr.isLive
    rwa [Arena.isLive, ← h.get?_eq hr] at hlive

/-- What is kept is still reached. -/
theorem Keeps.reached (h : a.Keeps roots a') {r : Reference} (hr : a.Reached roots r) :
    a'.Reached roots r := by
  induction hr with
  | root hmem hlive => exact .root hmem (h.isLive (.root hmem hlive))
  | owner _ ih => exact ih.owner
  | value hid hslot howner hlive ih =>
    obtain ⟨slot', hslot', hvalue⟩ := h.get?_value hid hslot
    exact ih.value hslot' (hvalue ▸ howner) (h.isLive (hid.value hslot howner hlive))
  | member hid hslot hbody hmem hlive ih =>
    exact ih.member ((h.get?_eq hid).trans hslot) hbody hmem
      (h.isLive (hid.member hslot hbody hmem hlive))

/-- In a closed arena with live roots, nothing else is reached from them either. -/
theorem Keeps.reached_iff (h : a.Keeps roots a') (hclosed : a.Closed)
    (hroots : ∀ r ∈ roots, a.isLive r.id) {r : Reference} :
    a'.Reached roots r ↔ a.Reached roots r := by
  refine ⟨fun hr => ?_, h.reached⟩
  induction hr with
  | root hmem _ => exact .root hmem (hroots _ hmem)
  | owner _ ih => exact ih.owner
  | value _ hslot howner _ ih =>
    obtain ⟨slot, hold⟩ := ih.get?
    obtain ⟨slot', hslot', hvalue⟩ := h.get?_value ih hold
    obtain rfl := Option.some.inj (hslot.symm.trans hslot')
    rw [hvalue] at howner
    exact ih.value hold howner ((hclosed.value hold).isLive howner)
  | member _ hslot hbody hmem _ ih =>
    rw [h.get?_eq ih] at hslot
    exact ih.member hslot hbody hmem (hclosed.member hslot hbody _ hmem)

theorem Keeps.trans (h : a.Keeps roots a') (h' : a'.Keeps roots' a'') (hsub : roots ⊆ roots') :
    a.Keeps roots a'' where
  value_eq hid := (h'.value_eq ((h.reached hid).mono hsub)).trans (h.value_eq hid)
  get?_eq hid := (h'.get?_eq ((h.reached hid).mono hsub)).trans (h.get?_eq hid)

theorem Extended.keeps (h : a.Extended a') (roots : List Reference) : a.Keeps roots a' := by
  have hsame {id : SlotId} (hid : a.isLive id) : a'.get? id = a.get? id := by
    obtain ⟨slot, hslot⟩ := get?_of_isLive hid
    rw [hslot, h.get?_eq hslot]
  exact ⟨fun hid => congrArg _ (hsame hid.isLive), fun hid => hsame hid.isLive⟩

/-! ### Collections -/

/-- A collection keeps what its roots lead to. -/
theorem keeps_collect (a : Arena) (hsub : roots ⊆ roots') : a.Keeps roots (a.collect roots').2 := by
  cases hpolicy : a.config.reclamation with
  | disabled =>
    rw [collect_of_disabled hpolicy]
    exact Keeps.refl a roots
  | markSweep =>
    constructor
    · intro id hid
      by_cases hhandle : a.Reached roots' (.handle id)
      · rw [get?_collect_of_handle hpolicy hhandle]
      · rw [get?_collect_of_slot hpolicy (hid.mono hsub) hhandle]
        cases a.get? id <;> rfl
    · intro id hid
      exact get?_collect_of_handle hpolicy (hid.mono hsub)

/-- What a collection leaves leads somewhere: a value that stays is reached, so the body that its
handle leads to stays too, and so do the members of a body that stays. -/
theorem Closed.collect (h : a.Closed) (roots : List Reference) : (a.collect roots).2.Closed := by
  cases hpolicy : a.config.reclamation with
  | disabled => rw [collect_of_disabled hpolicy]; exact h
  | markSweep =>
    have hkeeps : a.Keeps roots (a.collect roots).2 := keeps_collect a (List.Subset.refl _)
    constructor
    · intro id slot hslot
      have hid : a.Reached roots (.slot id) :=
        (isLive_collect_iff hpolicy).mp (isLive_of_get? hslot)
      obtain ⟨old, hold⟩ := hid.get?
      obtain ⟨slot', hslot', hvalue⟩ := hkeeps.get?_value hid hold
      obtain rfl := Option.some.inj (hslot.symm.trans hslot')
      rw [hvalue]
      apply (h.value hold).of_shape?
      intro owner shape howner hshape
      have howner : a.Reached roots (.handle owner) :=
        hid.value hold howner (isLive_of_shape? hshape)
      rw [← hshape, shape?, shape?, hkeeps.get?_eq howner]
    · intro id slot body hslot hbody member hmem
      -- Only a body that a handle leads to is left.
      have hhandle : a.Reached roots (.handle id) := by
        by_contra hhandle
        have hid : a.Reached roots (.slot id) :=
          (isLive_collect_iff hpolicy).mp (isLive_of_get? hslot)
        rw [get?_collect_of_slot hpolicy hid hhandle] at hslot
        obtain ⟨old, -, rfl⟩ := Option.map_eq_some_iff.mp hslot
        cases hbody
      rw [hkeeps.get?_eq hhandle] at hslot
      have hlive : a.isLive member := h.member hslot hbody member hmem
      exact (isLive_collect_iff hpolicy).mpr (hhandle.member hslot hbody hmem hlive)

/-! ### What is kept stays valid -/

theorem Keeps.value_validIn (h : a.Keeps roots a') {v : Value} (hv : v.ValidIn a)
    (hheld : ∀ owner, v.handle? = some owner → .handle owner ∈ roots) : v.ValidIn a' := by
  apply hv.of_shape?
  intro owner shape howner hshape
  have hreached : a.Reached roots (.handle owner) :=
    .root (hheld owner howner) (isLive_of_shape? hshape)
  rw [← hshape, shape?, shape?, h.get?_eq hreached]

theorem Keeps.reference_validIn (h : a.Keeps roots a') {r : Reference} (hr : r.ValidIn a)
    (hheld : r ∈ roots) : r.ValidIn a' := by
  cases r with
  | slot id => exact h.isLive (.root hheld hr)
  | handle id =>
    obtain ⟨shape, hshape⟩ := Option.isSome_iff_exists.mp hr
    have hreached : a.Reached roots (.handle id) := .root hheld (isLive_of_shape? hshape)
    show (a'.shape? id).isSome
    rw [shape?, h.get?_eq hreached]
    exact hr

end SlotScript.Arena
