import SlotScript.Proofs.Entries

/-!
# Elements through calls

`ElementsCall` lists the operations that change the elements of an array, with any index and any length of
32 bits. Through all of them the cells stay in ascending order and the length stays a length
(`Elements.WellFormed`), and a cell lies below the length unless both are at the greatest number there is
(`Elements.Confined`).

The exception is real. The length stops one short of what the greatest index asks for, so a slot put there
lies at the length until a shorter length cuts it off (`Elements.below_length_run_iff`).
-/

namespace SlotScript

/-- A call of an operation that changes the elements of an array. Indices and lengths have 32 bits. -/
inductive ElementsCall where
  | push (slot : SlotId)
  | set (index : UInt32) (slot : SlotId)
  | setLength (length : UInt32)

/-- The greatest number of 32 bits. As an index it has no length above it. -/
def lastIndex : UInt32 := 4294967295

/-- Each slot that is put at the greatest index is cut off by a later call. -/
def ElementsCall.ClearsLast (calls : List ElementsCall) : Prop :=
  ∀ slot later, (.set lastIndex slot :: later) <:+ calls →
    ∃ length, .setLength length ∈ later ∧ length ≠ lastIndex

namespace Elements

open ElementsCall (ClearsLast)

/-- The elements after a call. -/
def after (e : Elements) : ElementsCall → Elements
  | .push slot => e.push slot
  | .set index slot => e.set index.toNat slot
  | .setLength length => e.setLength length.toNat

/-- The elements after some calls. -/
def run (e : Elements) (calls : List ElementsCall) : Elements := calls.foldl after e

@[simp] theorem run_nil (e : Elements) : e.run [] = e := rfl

@[simp] theorem run_cons (e : Elements) (call : ElementsCall) (calls : List ElementsCall) :
    e.run (call :: calls) = (e.after call).run calls := rfl

theorem run_concat (e : Elements) (calls : List ElementsCall) (call : ElementsCall) :
    e.run (calls ++ [call]) = (e.run calls).after call := by
  rw [run, List.foldl_append]
  rfl

/-- A property of all elements that calls can lead to. -/
theorem run_induction {P : Elements → Prop} (hstep : ∀ e call, P e → P (e.after call)) {e : Elements}
    (h : P e) (calls : List ElementsCall) : P (e.run calls) := by
  induction calls generalizing e with
  | nil => exact h
  | cons call calls ih => exact ih (hstep e call h)

theorem toNat_le_maxArrayLength (n : UInt32) : n.toNat ≤ maxArrayLength :=
  Nat.le_of_lt_succ n.toNat_lt

theorem toNat_eq_maxArrayLength_iff {n : UInt32} : n.toNat = maxArrayLength ↔ n = lastIndex :=
  UInt32.toNat_inj (b := lastIndex)

/-! ### Cells in order -/

/-- The cells are in ascending order of their indices, and the length has 32 bits. -/
structure WellFormed (e : Elements) : Prop where
  ascending : e.cells.Pairwise (·.1 < ·.1)
  length_le : e.length ≤ maxArrayLength

variable {e : Elements}

theorem pairwise_insertCell {cells : List (Nat × SlotId)} (h : cells.Pairwise (·.1 < ·.1)) (index : Nat)
    (slot : SlotId) : (insertCell index slot cells).Pairwise (·.1 < ·.1) := by
  induction cells with
  | nil => exact List.pairwise_singleton _ _
  | cons cell rest ih =>
    obtain ⟨hcell, hrest⟩ := List.pairwise_cons.mp h
    unfold insertCell
    split
    · next hlt =>
      refine List.pairwise_cons.mpr ⟨List.forall_mem_cons.mpr ⟨hlt, fun other hother => ?_⟩, h⟩
      exact Nat.lt_trans hlt (hcell other hother)
    · split
      · next heq => exact List.pairwise_cons.mpr ⟨fun other hother => heq ▸ hcell other hother, hrest⟩
      · next hnlt hne =>
        refine List.pairwise_cons.mpr ⟨fun other hother => ?_, ih hrest⟩
        rcases mem_insertCell hother with rfl | hold
        · exact Nat.lt_of_le_of_ne (Nat.not_lt.mp hnlt) (Ne.symm hne)
        · exact hcell other hold

theorem wellFormed_empty : (∅ : Elements).WellFormed := ⟨List.Pairwise.nil, Nat.zero_le _⟩

theorem WellFormed.set (h : e.WellFormed) (index : Nat) (slot : SlotId) :
    (e.set index slot).WellFormed where
  ascending := pairwise_insertCell h.ascending index slot
  length_le := by
    have := h.length_le
    unfold Elements.set
    dsimp only
    split <;> omega

theorem WellFormed.push (h : e.WellFormed) (slot : SlotId) : (e.push slot).WellFormed := by
  unfold Elements.push
  split
  · exact h.set e.length slot
  · exact h

theorem WellFormed.setLength (h : e.WellFormed) {length : Nat} (hlength : length ≤ maxArrayLength) :
    (e.setLength length).WellFormed where
  ascending := by
    unfold Elements.setLength
    dsimp only
    split
    · exact h.ascending.filter _
    · exact h.ascending
  length_le := hlength

theorem WellFormed.after (h : e.WellFormed) (call : ElementsCall) : (e.after call).WellFormed := by
  cases call with
  | push slot => exact h.push slot
  | set index slot => exact h.set index.toNat slot
  | setLength length => exact h.setLength (toNat_le_maxArrayLength length)

/-! ### Cells below the length -/

/-- Each cell lies below the length, or the cell and the length are both at the greatest number. -/
def Confined (e : Elements) : Prop :=
  ∀ cell ∈ e.cells, cell.1 < e.length ∨ cell.1 = maxArrayLength ∧ e.length = maxArrayLength

theorem confined_empty : (∅ : Elements).Confined := List.forall_mem_nil _

theorem Confined.set (h : e.Confined) (hwell : e.WellFormed) {index : Nat}
    (hindex : index ≤ maxArrayLength) (slot : SlotId) : (e.set index slot).Confined := by
  have hle : e.length ≤ maxArrayLength := hwell.length_le
  have hlength : (e.set index slot).length = max e.length (min (index + 1) maxArrayLength) := by
    unfold Elements.set
    dsimp only
    split <;> omega
  intro cell hcell
  rw [hlength]
  rcases mem_insertCell hcell with rfl | hold
  · dsimp only
    omega
  · have := h cell hold
    omega

theorem Confined.push (h : e.Confined) (hwell : e.WellFormed) (slot : SlotId) :
    (e.push slot).Confined := by
  unfold Elements.push
  split
  · exact h.set hwell hwell.length_le slot
  · exact h

theorem Confined.setLength (h : e.Confined) {length : Nat} (hlength : length ≤ maxArrayLength) :
    (e.setLength length).Confined := by
  intro cell hcell
  unfold Elements.setLength at hcell ⊢
  dsimp only at hcell ⊢
  split at hcell
  · exact .inl (of_decide_eq_true (List.mem_filter.mp hcell).2)
  · have := h cell hcell
    omega

theorem Confined.after (h : e.Confined) (hwell : e.WellFormed) (call : ElementsCall) :
    (e.after call).Confined := by
  cases call with
  | push slot => exact h.push hwell slot
  | set index slot => exact h.set hwell (toNat_le_maxArrayLength index) slot
  | setLength length => exact h.setLength (toNat_le_maxArrayLength length)

/-- Whatever calls led to them, the cells of an array are in order and confined. -/
theorem wellFormed_confined_run (slots : List SlotId) (calls : List ElementsCall) :
    ((ofList slots).run calls).WellFormed ∧ ((ofList slots).run calls).Confined := by
  have hnew : (ofList slots).WellFormed ∧ (ofList slots).Confined := by
    induction slots using List.reverseRecOn with
    | nil => exact ⟨wellFormed_empty, confined_empty⟩
    | append_singleton slots slot ih =>
      rw [ofList_concat]
      exact ⟨ih.1.push slot, ih.2.push ih.1 slot⟩
  exact run_induction (P := fun e => e.WellFormed ∧ e.Confined)
    (fun _ call h => ⟨h.1.after call, h.2.after h.1 call⟩) hnew calls

/-! ### The greatest index -/

theorem get?_eq_none_iff {index : Nat} : e.get? index = none ↔ ∀ cell ∈ e.cells, cell.1 ≠ index := by
  rw [get?, List.lookup_eq_none_iff]
  refine forall₂_congr fun cell _ => ?_
  rw [bne_iff_ne, ne_comm]

/-- Confined cells lie below the length as soon as they lie below the greatest one. -/
theorem Confined.below_length_iff (h : e.Confined) (hwell : e.WellFormed) :
    (∀ cell ∈ e.cells, cell.1 < e.length) ↔ ∀ cell ∈ e.cells, cell.1 < maxArrayLength := by
  have hle : e.length ≤ maxArrayLength := hwell.length_le
  refine forall₂_congr fun cell hcell => ?_
  have := h cell hcell
  omega

theorem Confined.get?_last_eq_none_iff (h : e.Confined) (hwell : e.WellFormed) :
    e.get? maxArrayLength = none ↔ ∀ cell ∈ e.cells, cell.1 < e.length := by
  have hle : e.length ≤ maxArrayLength := hwell.length_le
  rw [get?_eq_none_iff]
  refine forall₂_congr fun cell hcell => ?_
  have := h cell hcell
  omega

/-- Only a call that puts a slot at the greatest index or that cuts off changes what is there. -/
theorem Confined.get?_last_after (h : e.Confined) (hwell : e.WellFormed) (call : ElementsCall) :
    (e.after call).get? maxArrayLength =
      match call with
      | .push _ => e.get? maxArrayLength
      | .set index slot => if index = lastIndex then some slot else e.get? maxArrayLength
      | .setLength length => if length = lastIndex then e.get? maxArrayLength else none := by
  have hle : e.length ≤ maxArrayLength := hwell.length_le
  cases call with
  | push slot =>
    show (e.push slot).get? maxArrayLength = e.get? maxArrayLength
    unfold Elements.push
    split
    · next hlt => rw [get?_set, if_neg (Nat.ne_of_gt hlt)]
    · rfl
  | set index slot =>
    show (e.set index.toNat slot).get? maxArrayLength = _
    simp only [get?_set, eq_comm (a := maxArrayLength), toNat_eq_maxArrayLength_iff]
  | setLength length =>
    show (e.setLength length.toNat).get? maxArrayLength = _
    have hlength : length.toNat ≤ maxArrayLength := toNat_le_maxArrayLength length
    rw [get?_setLength]
    dsimp only
    by_cases hlast : length = lastIndex
    · rw [if_pos hlast, if_pos (.inl (toNat_eq_maxArrayLength_iff.mpr hlast ▸ hle))]
    · have hlt : length.toNat < maxArrayLength :=
        Nat.lt_of_le_of_ne hlength (mt toNat_eq_maxArrayLength_iff.mp hlast)
      rw [if_neg hlast]
      split
      · next hkept =>
        -- A length that grows leaves the cells alone, but then none was at the greatest index.
        rw [get?_eq_none_iff]
        intro cell hcell
        have := h cell hcell
        omega
      · rfl

/-- A further call must not put a slot at the greatest index, and may cut off one that is there. -/
theorem clearsLast_concat_iff {calls : List ElementsCall} {call : ElementsCall} :
    ClearsLast (calls ++ [call]) ↔ (∀ slot, call ≠ .set lastIndex slot) ∧
      ((∃ length, call = .setLength length ∧ length ≠ lastIndex) ∨ ClearsLast calls) := by
  constructor
  · intro h
    refine ⟨?_, or_iff_not_imp_left.mpr fun hcut slot later hlater => ?_⟩
    · rintro slot rfl
      obtain ⟨length, hmem, -⟩ := h slot [] (List.suffix_append _ _)
      exact absurd hmem List.not_mem_nil
    · obtain ⟨length, hmem, hlength⟩ := h slot (later ++ [call])
        (List.suffix_concat_iff.mpr (.inr ⟨_, rfl, hlater⟩))
      rcases List.mem_append.mp hmem with hmem | hmem
      · exact ⟨length, hmem, hlength⟩
      · exact absurd ⟨length, (List.mem_singleton.mp hmem).symm, hlength⟩ hcut
  · rintro ⟨hset, h⟩ slot later hsuffix
    rcases List.suffix_concat_iff.mp hsuffix with hnil | ⟨front, hfront, hfrontSuffix⟩
    · cases hnil
    · cases front with
      | nil =>
        obtain ⟨rfl, rfl⟩ := List.cons.inj hfront
        exact absurd rfl (hset slot)
      | cons first rest =>
        obtain ⟨rfl, rfl⟩ := List.cons.inj hfront
        rcases h with ⟨length, rfl, hlength⟩ | h
        · exact ⟨length, List.mem_append_right _ List.mem_cons_self, hlength⟩
        · obtain ⟨length, hmem, hlength⟩ := h slot rest hfrontSuffix
          exact ⟨length, List.mem_append_left _ hmem, hlength⟩

/-- There is a slot at the greatest index as long as none of the calls after it cuts it off. -/
theorem get?_last_run_iff (slots : List SlotId) (calls : List ElementsCall) :
    ((ofList slots).run calls).get? maxArrayLength = none ↔ ClearsLast calls := by
  induction calls using List.reverseRecOn with
  | nil =>
    refine iff_of_true ?_ fun slot later hlater => by cases List.suffix_nil.mp hlater
    have hlength : (ofList slots).length ≤ maxArrayLength := (wellFormed_confined_run slots []).1.length_le
    -- The elements of a new array lie below its length.
    refine Option.eq_none_iff_forall_ne_some.mpr fun slot hslot => ?_
    exact Nat.not_lt.mpr hlength (indexed_ofList slots maxArrayLength slot hslot)
  | append_singleton calls call ih =>
    obtain ⟨hwell, hconfined⟩ := wellFormed_confined_run slots calls
    rw [run_concat, hconfined.get?_last_after hwell, clearsLast_concat_iff]
    cases call with
    | push slot => simp [ih]
    | set index slot =>
      by_cases hlast : index = lastIndex <;> simp [hlast, ih]
    | setLength length =>
      by_cases hlast : length = lastIndex <;> simp [hlast, ih]

/-- **The cells lie below the length** after any calls that cut off what they put at the greatest index, and
after no others. -/
theorem below_length_run_iff (slots : List SlotId) (calls : List ElementsCall) :
    (∀ cell ∈ ((ofList slots).run calls).cells, cell.1 < ((ofList slots).run calls).length) ↔
      ClearsLast calls := by
  obtain ⟨hwell, hconfined⟩ := wellFormed_confined_run slots calls
  rw [← hconfined.get?_last_eq_none_iff hwell, get?_last_run_iff]

end Elements

end SlotScript
