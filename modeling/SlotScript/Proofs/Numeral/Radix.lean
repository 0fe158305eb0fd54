import SlotScript.Proofs.Double.Nearest
import SlotScript.Proofs.Numeral.Whole

/-!
# Integers with a radix mark and in decimal

The numeral of a whole number is rounded once and denotes the double nearest to it. An integer with a radix mark
is rounded digit by digit; it denotes the same double unless the digits that are then not seen decide a tie
(`Double.ofText_radix_eq_iff`).
-/

namespace SlotScript

namespace Numeral

theorem IsRadixInteger.isBlank {cs : List Char} (h : IsRadixInteger cs) : ∀ c ∈ cs, Text.isBlank c = false := by
  have hmarks : ∀ form ∈ radixForms, form.marks.all fun c => !Text.isBlank c := by decide
  have htable : ∀ form ∈ radixForms, form.digits.all fun c => !Text.isBlank c := by decide
  cases h with
  | @intro form mark digits hform hmark hne hdigits =>
    simp only [List.mem_cons, forall_eq_or_imp]
    refine ⟨rfl, ?_, fun c hc => ?_⟩
    · simpa using List.all_eq_true.mp (hmarks form hform) mark hmark
    · simpa using List.all_eq_true.mp (htable form hform) c (hdigits hc)

theorem IsRadixInteger.infinity? {cs : List Char} (h : IsRadixInteger cs) : infinity? cs = none := by
  rw [← Option.not_isSome_iff_eq_none, isSome_infinity?_iff]
  rintro ⟨sign, hsign, rfl⟩
  rcases hsign with rfl | rfl | rfl <;> cases h

/-- A text of this form denotes what it is read as. -/
theorem ofText_of_radixInteger? {cs : List Char} {x : Double} (h : radixInteger? cs = some x) :
    Double.ofText (String.ofList cs) = x := by
  have hcs : IsRadixInteger cs := isSome_radixInteger?_iff.mp (Option.isSome_of_eq_some h)
  have hne : cs ≠ [] := by
    rintro rfl
    cases hcs
  rw [Double.ofText, String.toList_ofList, trim_of_not_isBlank hcs.isBlank, number?_eq_or hne, hcs.infinity?, h,
    Option.none_or, Option.some_or, Option.getD_some]

end Numeral

open Numeral

/-- **An integer with a radix mark and in decimal.** In decimal it denotes the double nearest to it. With a radix
mark it denotes the same double exactly when the digits that are not seen decide no tie. -/
theorem Double.ofText_radix_eq_iff {form : RadixForm} {mark : Char} {digits : List Char} {values : List Nat}
    (hform : form ∈ radixForms) (hmark : mark ∈ form.marks) (hne : digits ≠ [])
    (hvalues : digits.mapM (digitValue? form.radix) = some values) :
    let n := Nat.ofDigits form.radix values.reverse
    IsNearest (n * unitsPerOne) 1 (ofText (toString n)) ∧
      (ofText (String.ofList ('0' :: mark :: digits)) = ofText (toString n) ↔
        ¬ LosesTie form.radix values) := by
  intro n
  obtain ⟨k, hpos, hk, hpow⟩ := exists_radix_eq hform
  have hlt := lt_of_mapM_digitValue? hvalues
  have hread : radixInteger? ('0' :: mark :: digits) = some (ofDigits form.radix values) :=
    radixInteger?_eq_some_iff.mpr ⟨mark, digits, form.radix, values, rfl,
      radixOfMark?_eq_some_iff.mpr ⟨form, hform, hmark, rfl⟩, hvalues, hne, rfl⟩
  refine ⟨?_, ?_⟩
  · rw [ofText_toString]
    exact isNearest_round (n * unitsPerOne) Nat.one_pos
  · rw [ofText_of_radixInteger? hread, ofText_toString]
    show ofDigits form.radix values = ofNat (Nat.ofDigits form.radix values.reverse) ↔ _
    rw [hpow] at hlt ⊢
    exact ofDigits_eq_ofNat_iff hpos hk hlt

/-- Fifteen digits, of which the first fourteen have 54 bits and are a tie. -/
theorem Double.ofText_radix_eq_iff_tie :
    let digits := "20000000000001f".toList
    let values := [2, 0, 0, 0, 0, 0, 0, 0, 0, 0, 0, 0, 0, 1, 15]
    digits.mapM (digitValue? 16) = some values ∧
      (ofText (String.ofList ('0' :: 'x' :: digits)) = ofText (toString (Nat.ofDigits 16 values.reverse)) ↔
        ¬ LosesTie 16 values) := by
  intro digits values
  have hvalues : digits.mapM (digitValue? 16) = some values := by decide
  have hform : (⟨16, ['x', 'X'], "0123456789abcdefABCDEF".toList⟩ : RadixForm) ∈ radixForms := .head _
  exact ⟨hvalues, (Double.ofText_radix_eq_iff hform (.head _) (by decide) hvalues).2⟩

/-- They do decide it: the integer is one less than a double, and is read as the double below that. -/
theorem Double.ofText_radix_ne_decimal :
    ofText "0x20000000000001f" = ofNat (Nat.pow 2 57) ∧
      ofText (toString 0x20000000000001f) = ofNat (Nat.pow 2 57 + 32) ∧
        ofText "0x20000000000001f" ≠ ofText (toString 0x20000000000001f) := by
  decide +kernel

end SlotScript
