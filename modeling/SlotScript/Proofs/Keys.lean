import SlotScript.Proofs.Body
import Mathlib.Logic.ExistsUnique

/-!
# Keys of elements

The keys that address elements are the numerals of the indices. Each numeral does (`arrayIndex?_toString`), and
nothing else does: digits without a zero in front are the numeral of the number that they denote
(`toDigits_ofDigitChars`). So an index has one key (`arrayIndex?_canonical`), and what a body has at a place is
found under one key only (`Body.place_injective`).
-/

namespace SlotScript

variable {key : String} {index : Nat}

/-! ### Digits and the numerals of what they denote -/

theorem toDigits_of_isDigit {c : Char} (h : c.isDigit) :
    c.toNat - '0'.toNat < 10 ∧ Nat.toDigits 10 (c.toNat - '0'.toNat) = [c] := by
  obtain ⟨hle, hge⟩ := Char.isDigit_iff_toNat.mp h
  have hlt : c.toNat - '0'.toNat < 10 := Nat.sub_lt_left_of_lt_add hle (Nat.lt_succ_of_le hge)
  refine ⟨hlt, ?_⟩
  rw [Nat.toDigits_of_lt_base hlt, List.singleton_inj, ← Char.toNat_inj]
  exact (Nat.toNat_digitChar_of_lt_ten hlt).trans (Nat.add_sub_cancel' hle)

/-- Digits that are read after a number continue its numeral. -/
theorem toDigits_ofDigitChars_of_pos {digits : List Char} (h : ∀ c ∈ digits, c.isDigit) {n : Nat} (hn : 0 < n) :
    Nat.toDigits 10 (Nat.ofDigitChars 10 digits n) = Nat.toDigits 10 n ++ digits := by
  induction digits generalizing n with
  | nil => simp
  | cons c rest ih =>
    obtain ⟨hc, hrest⟩ := List.forall_mem_cons.mp h
    obtain ⟨hlt, hdigit⟩ := toDigits_of_isDigit hc
    rw [Nat.ofDigitChars_cons, ih hrest (by omega), ← Nat.toDigits_append_toDigits (by decide) hn hlt, hdigit,
      List.append_assoc, List.singleton_append]

/-- Digits without a zero in front are the numeral of what they denote. -/
theorem toDigits_ofDigitChars {digits : List Char} (hne : digits ≠ []) (h : ∀ c ∈ digits, c.isDigit)
    (hlead : digits = ['0'] ∨ digits.head? ≠ some '0') :
    Nat.toDigits 10 (Nat.ofDigitChars 10 digits 0) = digits := by
  rcases hlead with rfl | hlead
  · rfl
  · obtain ⟨c, rest, rfl⟩ := List.exists_cons_of_ne_nil hne
    obtain ⟨hc, hrest⟩ := List.forall_mem_cons.mp h
    obtain ⟨-, hdigit⟩ := toDigits_of_isDigit hc
    have hpos : 0 < c.toNat - '0'.toNat := by
      refine Nat.pos_of_ne_zero fun hzero => hlead ?_
      rw [hzero] at hdigit
      exact congrArg List.head? hdigit.symm
    rw [Nat.ofDigitChars_cons, Nat.mul_zero, Nat.zero_add, toDigits_ofDigitChars_of_pos hrest hpos, hdigit,
      List.singleton_append]

/-- Only the numeral of zero starts with a zero. -/
theorem head?_toDigits_ne {n : Nat} (h : n ≠ 0) : (Nat.toDigits 10 n).head? ≠ some '0' := by
  induction n using Nat.strongRecOn with
  | ind n ih =>
    by_cases hlt : n < 10
    · have hdigit : ∀ digit < 10, digit ≠ 0 → digit.digitChar ≠ '0' := by decide
      rw [Nat.toDigits_of_lt_base hlt]
      exact fun heq => hdigit n hlt h (Option.some.inj heq)
    · have hrest : (Nat.toDigits 10 (n / 10)).head? ≠ some '0' := ih (n / 10) (by omega) (by omega)
      obtain ⟨c, cs, hcons⟩ := List.exists_cons_of_ne_nil (Nat.toDigits_ne_nil (n := n / 10) (b := 10))
      rw [hcons] at hrest
      rw [Nat.toDigits_of_base_le (by decide) (by omega), hcons]
      exact hrest

/-! ### Keys and indices -/

/-- The numeral of an index addresses it. -/
theorem arrayIndex?_toString (h : index < maxArrayLength) : arrayIndex? (toString index) = some index := by
  have htext : (toString index).toList = Nat.toDigits 10 index := by
    rw [Nat.toString_eq_ofList_toDigits, String.toList_ofList]
  have hdigits : (Nat.toDigits 10 index).all Char.isDigit := List.all_eq_true.mpr fun c hc =>
    Nat.isDigit_of_mem_toDigits (by decide) (by decide) hc
  have hlead : Nat.toDigits 10 index = ['0'] ∨ (Nat.toDigits 10 index).head? ≠ some '0' := by
    by_cases hzero : index = 0
    · exact .inl (by rw [hzero]; rfl)
    · exact .inr (head?_toDigits_ne hzero)
  unfold arrayIndex?
  dsimp only
  rw [htext, if_pos ⟨Nat.toDigits_ne_nil, hdigits, hlead⟩, Nat.ofDigitChars_ten_toDigits, if_pos h]

/-- A key that addresses an element is the numeral of the index. -/
theorem toString_of_arrayIndex? (h : arrayIndex? key = some index) : key = toString index := by
  unfold arrayIndex? at h
  dsimp only at h
  split at h
  · next hkey =>
    obtain ⟨hne, hdigits, hlead⟩ := hkey
    split at h
    · rw [← Option.some.inj h, Nat.toString_eq_ofList_toDigits,
        toDigits_ofDigitChars hne (List.all_eq_true.mp hdigits) hlead, String.ofList_toList]
    · cases h
  · cases h

theorem arrayIndex?_eq_some_iff :
    arrayIndex? key = some index ↔ index < maxArrayLength ∧ key = toString index := by
  constructor
  · exact fun h => ⟨lt_of_arrayIndex? h, toString_of_arrayIndex? h⟩
  · rintro ⟨hlt, rfl⟩
    exact arrayIndex?_toString hlt

namespace Body

/-- In an array, the numeral of an index leads to the element there. -/
theorem place_toString {b : Body} (h : b.elements?.isSome) (hindex : index < maxArrayLength) :
    b.place (toString index) = .element index := by
  obtain ⟨e, he⟩ := Option.isSome_iff_exists.mp h
  simp only [place, he, arrayIndex?_toString hindex]

theorem place_eq_element_iff {b : Body} :
    b.place key = .element index ↔ b.elements?.isSome ∧ index < maxArrayLength ∧ key = toString index := by
  constructor
  · intro h
    obtain ⟨e, he⟩ := elements?_of_place_eq_element h
    exact ⟨by rw [he]; rfl, arrayIndex?_eq_some_iff.mp (arrayIndex?_of_place h)⟩
  · rintro ⟨harray, hlt, rfl⟩
    exact place_toString harray hlt

theorem eq_of_place_eq_property {b : Body} {name : String} (h : b.place key = .property name) : key = name := by
  unfold place at h
  split at h
  · cases h
  · split at h <;> cases h
    rfl
  · cases h
    rfl

/-- A place has one key only. -/
theorem place_injective (b : Body) : Function.Injective b.place := by
  intro key other h
  cases hplace : b.place key with
  | element index =>
    rw [(place_eq_element_iff.mp hplace).2.2, (place_eq_element_iff.mp (h.symm.trans hplace)).2.2]
  | length => rw [(place_eq_length_iff.mp hplace).2, (place_eq_length_iff.mp (h.symm.trans hplace)).2]
  | property name => rw [eq_of_place_eq_property hplace, eq_of_place_eq_property (h.symm.trans hplace)]

end Body

/-- **The keys of the elements are the numerals of the indices.** So each index has one key, and no two keys lead
to the same place in a body. -/
theorem arrayIndex?_canonical (key : String) (index : Nat) :
    (arrayIndex? key = some index ↔ index < maxArrayLength ∧ key = toString index) ∧
      (index < maxArrayLength → ∃! key, arrayIndex? key = some index) ∧
        ∀ b : Body, Function.Injective b.place ∧
          (b.elements?.isSome → index < maxArrayLength → ∃! key, b.place key = .element index) := by
  refine ⟨arrayIndex?_eq_some_iff, fun hlt => ?_, fun b => ⟨b.place_injective, fun harray hlt => ?_⟩⟩
  · exact ⟨toString index, arrayIndex?_toString hlt, fun other hother => toString_of_arrayIndex? hother⟩
  · refine ⟨toString index, Body.place_toString harray hlt, fun other hother => ?_⟩
    exact (Body.place_eq_element_iff.mp hother).2.2

/-- Keys that denote a number without being its numeral, and the numeral of a number that is no index. -/
example : ["", "01", "-1", "1.5", " 1", "1e3", "4294967295"].map arrayIndex? = List.replicate 7 none := by
  decide +kernel

end SlotScript
