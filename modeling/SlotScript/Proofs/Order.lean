import SlotScript.Proofs.Comparison

/-!
# The laws of the order

Values are compared in one of two ways, two texts by their characters and all other pairs by number. Either way
the comparison is that of a linear order wherever it has a result, so it is reversed with its operands
(`Value.compare?_swap`) and comparisons that go upward compose (`Value.compare?_trans`), as long as all of
them go the same way: among three values that means texts only, or at most one text. With two texts and a
number the order goes round in a circle.
-/

namespace SlotScript

/-- In a linear order comparisons that go upward compose, strictly as soon as one of them is strict. -/
theorem compare_eq_then {α : Type} [Ord α] [Std.TransOrd α] {a b c : α} (hab : (compare a b).isLE)
    (hbc : (compare b c).isLE) : compare a c = (compare a b).then (compare b c) := by
  rcases Ordering.isLE_iff_eq_lt_or_eq_eq.mp hab with hlt | heq
  · rw [hlt]
    exact Std.TransCmp.lt_of_lt_of_isLE hlt hbc
  · rw [heq]
    exact Std.TransCmp.congr_left heq

namespace Double

variable {x y z : Double}

theorem compare?_of_position {p q : Int} (hx : x.position = some p) (hy : y.position = some q) :
    x.compare? y = some (compare p q) := by
  rw [compare?, hx, hy]
  rfl

/-- Only not-a-number has no place in the order. -/
theorem compare?_eq_none_iff : x.compare? y = none ↔ x = nan ∨ y = nan := by
  rw [← position_eq_none_iff, ← position_eq_none_iff, compare?]
  cases x.position with
  | none => simp
  | some p => cases y.position <;> simp

theorem exists_positions {o : Ordering} (h : x.compare? y = some o) :
    ∃ p q, x.position = some p ∧ y.position = some q ∧ compare p q = o := by
  have hsome : ¬ (x = nan ∨ y = nan) := fun hnan => by
    rw [compare?_eq_none_iff.mpr hnan] at h
    cases h
  obtain ⟨p, hp⟩ := exists_position_eq_some (not_or.mp hsome).1
  obtain ⟨q, hq⟩ := exists_position_eq_some (not_or.mp hsome).2
  exact ⟨p, q, hp, hq, Option.some.inj ((compare?_of_position hp hq).symm.trans h)⟩

theorem compare?_swap (x y : Double) : y.compare? x = (x.compare? y).map Ordering.swap := by
  cases h : x.compare? y with
  | none => exact compare?_eq_none_iff.mpr (compare?_eq_none_iff.mp h).symm
  | some o =>
    obtain ⟨p, q, hp, hq, rfl⟩ := exists_positions h
    rw [compare?_of_position hq hp, Std.OrientedOrd.eq_swap]
    rfl

theorem compare?_trans {o o' : Ordering} (hxy : x.compare? y = some o) (hyz : y.compare? z = some o')
    (ho : o.isLE) (ho' : o'.isLE) : x.compare? z = some (o.then o') := by
  obtain ⟨p, q, hp, hq, rfl⟩ := exists_positions hxy
  obtain ⟨q', r, hq', hr, rfl⟩ := exists_positions hyz
  obtain rfl : q = q' := Option.some.inj (hq.symm.trans hq')
  rw [compare?_of_position hp hr, compare_eq_then ho ho']

end Double

namespace Value

variable {a b c : Value}

/-! ### What is compared, and how -/

theorem rank?_eq_none_iff : a.rank? = none ↔ a = undefined ∨ a.isCompound := by
  cases a <;> simp [rank?, isCompound]

theorem compare?_of_rank?_eq_none (h : a.rank? = none ∨ b.rank? = none) : a.compare? b = none := by
  unfold compare?
  rcases h with h | h
  · rw [h]
    rfl
  · rw [h]
    cases a.rank? <;> rfl

theorem exists_text (h : a.isText) : ∃ s, a = text s := by
  cases a with
  | text s => exact ⟨s, rfl⟩
  | _ => cases h

theorem compare?_text (s t : String) : (text s).compare? (text t) = some (compare s t) := rfl

/-- The ways in which two values are compared. -/
inductive Comparison : Value → Value → Prop where
  | unordered {a b : Value} (h : a.rank? = none ∨ b.rank? = none) : Comparison a b
  | texts (s t : String) : Comparison (text s) (text t)
  | numbers {a b : Value} (ha : a.rank?.isSome) (hb : b.rank?.isSome) (h : ¬ (a.isText ∧ b.isText)) :
    Comparison a b

theorem comparison (a b : Value) : Comparison a b := by
  by_cases hnone : a.rank? = none ∨ b.rank? = none
  · exact .unordered hnone
  · obtain ⟨ha, hb⟩ := not_or.mp hnone
    by_cases htexts : a.isText ∧ b.isText
    · obtain ⟨s, rfl⟩ := exists_text htexts.1
      obtain ⟨t, rfl⟩ := exists_text htexts.2
      exact .texts s t
    · exact .numbers (Option.ne_none_iff_isSome.mp ha) (Option.ne_none_iff_isSome.mp hb) htexts

/-- What is comparable has a rank. -/
theorem isSome_rank?_of_compare? {o : Ordering} (h : a.compare? b = some o) :
    a.rank?.isSome ∧ b.rank?.isSome := by
  cases comparison a b with
  | unordered hnone =>
    rw [compare?_of_rank?_eq_none hnone] at h
    cases h
  | texts s t => exact ⟨rfl, rfl⟩
  | numbers ha hb _ => exact ⟨ha, hb⟩

theorem compare?_eq_none_iff : a.compare? b = none ↔ (∃ v ∈ [a, b], v = undefined ∨ v.isCompound) ∨
    ¬ (a.isText ∧ b.isText) ∧ ∃ v ∈ [a, b], v.toNumber = .nan := by
  have hpair (P : Value → Prop) : (∃ v ∈ [a, b], P v) ↔ P a ∨ P b := by simp
  simp only [hpair, ← rank?_eq_none_iff]
  cases comparison a b with
  | unordered hnone => exact iff_of_true (compare?_of_rank?_eq_none hnone) (.inl hnone)
  | texts s t => simp [compare?_text, isText, rank?]
  | numbers ha hb h =>
    have hranked : ¬ (a.rank? = none ∨ b.rank? = none) :=
      not_or.mpr ⟨Option.ne_none_iff_isSome.mpr ha, Option.ne_none_iff_isSome.mpr hb⟩
    rw [compare?_eq_compare? ha hb h, Double.compare?_eq_none_iff, or_iff_right hranked, and_iff_right h]

/-! ### The laws -/

/-- The order is reversed with its operands. -/
theorem compare?_swap (a b : Value) : b.compare? a = (a.compare? b).map Ordering.swap := by
  cases comparison a b with
  | unordered hnone =>
    rw [compare?_of_rank?_eq_none hnone, compare?_of_rank?_eq_none hnone.symm]
    rfl
  | texts s t =>
    rw [compare?_text, compare?_text, Std.OrientedOrd.eq_swap]
    rfl
  | numbers ha hb h =>
    rw [compare?_eq_compare? ha hb h, compare?_eq_compare? hb ha (mt And.symm h), Double.compare?_swap]

/-- The values are compared with each other in one way: all are texts, or at most one is. -/
def ComparedAlike (vs : List Value) : Prop := (∀ v ∈ vs, v.isText) ∨ vs.countP isText ≤ 1

instance (vs : List Value) : Decidable (ComparedAlike vs) := inferInstanceAs (Decidable (_ ∨ _))

/-- Of three values of which not all are texts no two are. -/
theorem ComparedAlike.cases (h : ComparedAlike [a, b, c]) :
    (a.isText ∧ b.isText ∧ c.isText) ∨
      (¬ (a.isText ∧ b.isText) ∧ ¬ (b.isText ∧ c.isText) ∧ ¬ (a.isText ∧ c.isText)) := by
  rcases h with hall | hone
  · exact .inl (by simpa using hall)
  · rw [List.countP_cons, List.countP_cons, List.countP_singleton] at hone
    cases ha : a.isText <;> cases hb : b.isText <;> cases hc : c.isText <;> simp_all

/-- Comparisons that go upward and one way compose, strictly as soon as one of them is strict. -/
theorem compare?_trans (h : ComparedAlike [a, b, c]) {o o' : Ordering} (hab : a.compare? b = some o)
    (hbc : b.compare? c = some o') (ho : o.isLE) (ho' : o'.isLE) : a.compare? c = some (o.then o') := by
  rcases h.cases with ⟨ha, hb, hc⟩ | ⟨htextsAB, htextsBC, htextsAC⟩
  · obtain ⟨s, rfl⟩ := exists_text ha
    obtain ⟨t, rfl⟩ := exists_text hb
    obtain ⟨u, rfl⟩ := exists_text hc
    obtain rfl := Option.some.inj hab
    obtain rfl := Option.some.inj hbc
    rw [compare?_text, compare_eq_then ho ho']
  · obtain ⟨ha, hb⟩ := isSome_rank?_of_compare? hab
    obtain ⟨-, hc⟩ := isSome_rank?_of_compare? hbc
    rw [compare?_eq_compare? ha hb htextsAB] at hab
    rw [compare?_eq_compare? hb hc htextsBC] at hbc
    rw [compare?_eq_compare? ha hc htextsAC]
    exact Double.compare?_trans hab hbc ho ho'

theorem lt_iff : a.lt b ↔ a.compare? b = some .lt := decide_eq_true_iff

theorem gt_iff : a.gt b ↔ a.compare? b = some .gt := decide_eq_true_iff

theorem le_iff : a.le b ↔ ∃ o, a.compare? b = some o ∧ o.isLE := by
  rw [le, Bool.or_eq_true, lt_iff, decide_eq_true_iff]
  constructor
  · rintro (h | h) <;> exact ⟨_, h, rfl⟩
  · rintro ⟨o, h, ho⟩
    rcases Ordering.isLE_iff_eq_lt_or_eq_eq.mp ho with rfl | rfl
    · exact .inl h
    · exact .inr h

theorem compare?_eq_some_iff {o : Ordering} : a.compare? b = some o ↔ b.compare? a = some o.swap := by
  rw [compare?_swap a b]
  cases a.compare? b with
  | none => simp
  | some o' => rw [Option.map_some, Option.some_inj, Option.some_inj, Ordering.swap_inj]

theorem lt_iff_gt : a.lt b ↔ b.gt a := by
  rw [lt_iff, gt_iff, compare?_eq_some_iff]
  rfl

theorem le_iff_ge : a.le b ↔ b.ge a := by
  rw [le, ge, Bool.or_eq_true, Bool.or_eq_true, lt_iff_gt, decide_eq_true_iff, decide_eq_true_iff,
    compare?_eq_some_iff (o := .eq)]
  rfl

/-- **The laws of the order.** Reversing the operands reverses the comparison. There is none exactly if an operand
is `undefined` or compound, or if one of them is no number and they are not both texts. The order is transitive,
strictly if one of the two premises is strict, among texts and where at most one of the three is a text. -/
theorem order_lawful :
    (∀ a b : Value, b.compare? a = (a.compare? b).map Ordering.swap) ∧
      (∀ a b : Value, a.lt b ↔ b.gt a) ∧
      (∀ a b : Value, a.le b ↔ b.ge a) ∧
      (∀ a b : Value, a.compare? b = none ↔ (∃ v ∈ [a, b], v = undefined ∨ v.isCompound) ∨
        ¬ (a.isText ∧ b.isText) ∧ ∃ v ∈ [a, b], v.toNumber = .nan) ∧
      ∀ a b c : Value, ComparedAlike [a, b, c] → a.le b → b.le c →
        a.le c ∧ (a.lt b ∨ b.lt c → a.lt c) := by
  refine ⟨compare?_swap, fun a b => lt_iff_gt, fun a b => le_iff_ge, fun a b => compare?_eq_none_iff, ?_⟩
  intro a b c halike hab hbc
  obtain ⟨o, hab, ho⟩ := le_iff.mp hab
  obtain ⟨o', hbc, ho'⟩ := le_iff.mp hbc
  have hac : a.compare? c = some (o.then o') := compare?_trans halike hab hbc ho ho'
  rw [le_iff, lt_iff, lt_iff, lt_iff, hab, hbc, hac, Option.some_inj, Option.some_inj, Option.some_inj]
  refine ⟨⟨_, rfl, ?_⟩, ?_⟩
  · cases o <;> trivial
  · rintro (rfl | rfl)
    · rfl
    · rcases Ordering.isLE_iff_eq_lt_or_eq_eq.mp ho with rfl | rfl <;> rfl

/-- A truth value, a text that denotes one, and a greater number. -/
theorem order_lawful_mixed :
    let a := boolean true
    let b := text " 0x1 "
    let c := number (.infinity false)
    (ComparedAlike [a, b, c] ∧ a.le b ∧ b.le c ∧ b.lt c) ∧ a.le c ∧ a.lt c := by
  intro a b c
  have halike : ComparedAlike [a, b, c] := by decide
  have hab : a.le b := by decide +kernel
  have hbc : b.le c := by decide +kernel
  have hlt : b.lt c := by decide +kernel
  obtain ⟨hle, hstrict⟩ := order_lawful.2.2.2.2 a b c halike hab hbc
  exact ⟨⟨halike, hab, hbc, hlt⟩, hle, hstrict (.inr hlt)⟩

/-- Two texts by their characters, each of them and a number by number. -/
example : let a := text "10"; let b := text "9"; let c := number (.ofNat 9)
    a.lt b ∧ b.le c ∧ c.lt a := by
  decide +kernel

end Value

end SlotScript
