import SlotScript.Proofs.Keys
import SlotScript.Proofs.Numeral.Whole
import SlotScript.Value.Basic

/-!
# Numbers as keys

A number that is used as a key goes through its text. The text addresses an element exactly when it is the
numeral of an index, and of the numbers just those equal to the index have that text: what is read from digits
is a whole number (`Double.ofText_digits`), and what is printed of a whole number is its numeral
(`Double.toText_of_position_eq`). So a number addresses the element at the index that it is equal to, and
nothing if it is no index (`Value.arrayIndex?_toText`).
-/

namespace SlotScript

open Numeral

/-- A key that addresses an element consists of digits, and they denote the index. -/
theorem digits_of_arrayIndex? {key : String} {index : Nat} (h : arrayIndex? key = some index) :
    key.toList ≠ [] ∧ AreDigits key.toList ∧ Nat.ofDigitChars 10 key.toList 0 = index := by
  rw [toString_of_arrayIndex? h, Nat.toString_eq_ofList_toDigits, String.toList_ofList]
  exact ⟨Nat.toDigits_ne_nil, areDigits_toDigits index, Nat.ofDigitChars_ten_toDigits⟩

/-- A key that addresses an element denotes the index. -/
theorem ofText_of_arrayIndex? {key : String} {index : Nat} (h : arrayIndex? key = some index) :
    Double.ofText key = .ofNat index := by
  obtain ⟨hne, hdigits, hvalue⟩ := digits_of_arrayIndex? h
  rw [← String.ofList_toList (s := key), Double.ofText_digits hne hdigits, hvalue]

theorem maxArrayLength_lt : maxArrayLength < Nat.pow 2 53 := by decide

namespace Double

variable {x : Double} {index : Nat}

/-- The numbers that are no index: they are not finite, negative, no whole number, or too large. -/
inductive NoIndex : Double → Prop where
  | nan : NoIndex nan
  | infinity {negative : Bool} : NoIndex (infinity negative)
  | negative {m : Magnitude} (h : m.units ≠ 0) : NoIndex (finite true m)
  | fraction {negative : Bool} {m : Magnitude} (h : m.units % unitsPerOne ≠ 0) : NoIndex (finite negative m)
  | large {m : Magnitude} (h : maxArrayLength * unitsPerOne ≤ m.units) : NoIndex (finite false m)

theorem noIndex_iff : x.NoIndex ↔ ∀ index < maxArrayLength, x.toNat? ≠ some index := by
  constructor
  · intro h index hlt
    cases h with
    | nan => simp [toNat?]
    | infinity => simp [toNat?]
    | negative h => simp [toNat?, h]
    | fraction h => simp [toNat?, h]
    | @large m h =>
      intro hwhole
      obtain ⟨negative, m', heq, hunits, -⟩ := exists_finite_of_toNat? hwhole
      cases heq
      rw [hunits] at h
      exact Nat.not_lt.mpr (Nat.le_of_mul_le_mul_right h unitsPerOne_pos) hlt
  · intro h
    cases x with
    | nan => exact .nan
    | infinity negative => exact .infinity
    | finite negative m =>
      by_cases hmod : m.units % unitsPerOne = 0
      · by_cases hsign : negative = false ∨ m.units = 0
        · have hwhole : toNat? (finite negative m) = some (m.units / unitsPerOne) := if_pos ⟨hmod, hsign⟩
          have hle : maxArrayLength ≤ m.units / unitsPerOne := Nat.not_lt.mp fun hlt => h _ hlt hwhole
          rw [Nat.le_div_iff_mul_le unitsPerOne_pos] at hle
          have hpos : 0 < maxArrayLength * unitsPerOne := Nat.mul_pos (by decide) unitsPerOne_pos
          rw [hsign.resolve_right (Nat.ne_of_gt (Nat.lt_of_lt_of_le hpos hle))]
          exact .large hle
        · obtain ⟨hnegative, hne⟩ := not_or.mp hsign
          rw [Bool.not_eq_false] at hnegative
          rw [hnegative]
          exact .negative hne
      · exact .fraction hmod

/-- The text of a number addresses an element exactly at the index that the number is. -/
theorem arrayIndex?_toText_eq_some_iff :
    arrayIndex? x.toText = some index ↔ x.toNat? = some index ∧ index < maxArrayLength := by
  have hsmall (hlt : index < maxArrayLength) : index < Nat.pow 2 53 := Nat.lt_trans hlt maxArrayLength_lt
  constructor
  · intro h
    have hlt := lt_of_arrayIndex? h
    have hsame := same_iff.mp x.same_ofText_toText
    rw [ofText_of_arrayIndex? h, position_ofNat (Nat.le_of_lt (hsmall hlt))] at hsame
    exact ⟨(toNat?_eq_some_iff (Nat.le_of_lt (hsmall hlt))).mpr hsame.symm, hlt⟩
  · rintro ⟨h, hlt⟩
    rw [toNat?_eq_some_iff (Nat.le_of_lt (hsmall hlt))] at h
    rw [toText_of_position_eq (hsmall hlt) h, arrayIndex?_toString hlt]

end Double

/-- **Numbers as keys.** A number addresses the element at the index that it is equal to, the zeros among them
the first. No other number addresses an element, nor does one whose text has an exponent. -/
theorem Value.arrayIndex?_toText (x : Double) :
    (∀ index, arrayIndex? (number x).toText = some index ↔
        x.numEq (.ofNat index) ∧ index < maxArrayLength) ∧
      (arrayIndex? (number x).toText = none ↔ x.NoIndex) ∧
        ('e' ∈ (number x).toText.toList → arrayIndex? (number x).toText = none) := by
  have htext : (number x).toText = x.toText := rfl
  rw [htext]
  refine ⟨fun index => ?_, ?_, fun hmem => ?_⟩
  · rw [Double.arrayIndex?_toText_eq_some_iff]
    refine and_congr_left fun hlt => ?_
    rw [Double.numEq_ofNat_iff (Nat.le_of_lt (Nat.lt_trans hlt maxArrayLength_lt))]
  · rw [Option.eq_none_iff_forall_ne_some, Double.noIndex_iff]
    simp only [ne_eq, Double.arrayIndex?_toText_eq_some_iff, not_and']
  · refine Option.eq_none_iff_forall_ne_some.mpr fun index h => ?_
    have hdigit := (digits_of_arrayIndex? h).2.1 'e' hmem
    cases hdigit

/-- The least number in exponent form, a whole one. -/
theorem Value.arrayIndex?_toText_exponent :
    let x := Double.ofDecimal false ⟨1, 21⟩
    'e' ∈ (number x).toText.toList ∧ arrayIndex? (number x).toText = none := by
  intro x
  have hmem : 'e' ∈ (number x).toText.toList := by decide +kernel
  exact ⟨hmem, (arrayIndex?_toText x).2.2 hmem⟩

/-- The last index, and one more. -/
example : arrayIndex? (Value.number (.ofNat 4294967294)).toText = some 4294967294 ∧
    arrayIndex? (Value.number (.ofNat 4294967295)).toText = none := by
  decide +kernel

end SlotScript
