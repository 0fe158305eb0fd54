import SlotScript.Proofs.Numeral.RoundTrip

/-!
# Whole numbers in decimal

Digits alone are read as the double nearest to the whole number that they denote (`Double.ofText_digits`).
Below `2 ^ 53` a whole number is a double, and its text is its numeral (`Double.toText_of_position_eq`): the
search for the shortest decimal ends at the ones or before, so what it finds is a whole number too, and no other
one is read as this double.
-/

namespace SlotScript

namespace Numeral

theorem readsAs_digits {digits : List Char} (hne : digits ≠ []) (hdigits : AreDigits digits) :
    ReadsAs digits ⟨Nat.ofDigitChars 10 digits 0, 0⟩ := by
  have hread : decimal? (digits ++ []) = _ := decimal?_whole hne hdigits (rfl : exponent? [] = some 0)
  rw [List.append_nil] at hread
  exact ⟨_, hread, fun negative => rfl⟩

end Numeral

namespace Double

theorem ofDecimal_natCast (n : Nat) (e : Nat) : ofDecimal false ⟨n, e⟩ = ofNat (n * Nat.pow 10 e) := rfl

/-- **Digits are read as the whole number that they denote**, rounded once. -/
theorem ofText_digits {digits : List Char} (hne : digits ≠ []) (hdigits : Numeral.AreDigits digits) :
    ofText (String.ofList digits) = ofNat (Nat.ofDigitChars 10 digits 0) := by
  have hread := (Numeral.readsAs_digits hne hdigits).ofText false
  have hexponent : ofDecimal false ⟨Nat.ofDigitChars 10 digits 0, 0⟩ = _ := ofDecimal_natCast _ 0
  rw [hexponent, Nat.pow_eq, Nat.pow_zero, Nat.mul_one] at hread
  simpa using hread

/-- The numeral of a whole number denotes it, rounded once. -/
theorem ofText_toString (n : Nat) : ofText (toString n) = ofNat n := by
  rw [Nat.toString_eq_ofList_toDigits, ofText_digits Nat.toDigits_ne_nil (Numeral.areDigits_toDigits n),
    Nat.ofDigitChars_ten_toDigits]

end Double

/-! ### Printing -/

namespace Numeral

/-- Zeros in the exponent are zeros at the end of the digits. -/
theorem toDigits_mul_ten_pow {n : Nat} (hn : n ≠ 0) (e : Nat) :
    Nat.toDigits 10 (n * Nat.pow 10 e) = Nat.toDigits 10 n ++ List.replicate e '0' := by
  induction e with
  | zero => simp
  | succ e ih =>
    have hpos : 0 < n * Nat.pow 10 e := Nat.mul_pos (Nat.pos_of_ne_zero hn) (Nat.pow_pos (by decide))
    have happend := Nat.toDigits_append_toDigits (b := 10) (by decide) hpos (by decide : 0 < 10)
    have hsucc : n * Nat.pow 10 (e + 1) = 10 * (n * Nat.pow 10 e) + 0 := by
      rw [Nat.pow_eq, Nat.pow_succ, ← Nat.mul_assoc, Nat.mul_comm, Nat.pow_eq, Nat.add_zero]
    rw [hsucc, ← happend, ih, List.replicate_succ', List.append_assoc]
    rfl

end Numeral

namespace Magnitude

variable {m : Magnitude} {n : Nat}

/-- A whole number is cut off nowhere. -/
theorem places_of_units_eq (hunits : m.units = n * unitsPerOne) : m.places = n * Nat.pow 10 finestPlace := by
  rw [places, hunits, Nat.mul_right_comm, Nat.mul_div_cancel _ unitsPerOne_pos]

theorem isReadFrom_natCast_iff {digits e : Nat} (hunits : m.units = n * unitsPerOne) (hlt : n < Nat.pow 2 53) :
    m.IsReadFrom ⟨digits, e⟩ ↔ digits * Nat.pow 10 e = n := by
  rw [IsReadFrom, Double.ofDecimal_natCast, Double.ofNat, Double.round_eq_finite_iff, hunits,
    nearestUnits_mul_unitsPerOne, Nat.mul_left_inj (Nat.ne_of_gt unitsPerOne_pos), nearestUnits_eq_iff hlt]

/-- The shortest decimal of a whole number is a whole number: itself. -/
theorem shortest_of_units_eq (hunits : m.units = n * unitsPerOne) (hlt : n < Nat.pow 2 53) (hn : n ≠ 0) :
    ∃ digits e : Nat, m.shortest = ⟨digits, e⟩ ∧ digits * Nat.pow 10 e = n := by
  have hplaces := places_of_units_eq hunits
  have hpow (k : Nat) : 0 < Nat.pow 10 k := Nat.pow_pos (by decide)
  have hones : m.IsReadFrom ⟨m.places / Nat.pow 10 finestPlace, finestPlace - finestPlace⟩ := by
    have hread := (isReadFrom_natCast_iff (e := 0) hunits hlt).mpr (Nat.mul_one n)
    rwa [hplaces, Nat.mul_div_cancel n (hpow finestPlace), Int.sub_self]
  have hlength : finestPlace < (Nat.toDigits 10 m.places).length := by
    rw [hplaces, Numeral.toDigits_mul_ten_pow hn, List.length_append, List.length_replicate]
    exact Nat.lt_add_of_pos_left Nat.length_toDigits_pos
  have hexponent := le_exponent_shortest hlength hones
  have hread := m.isReadFrom_shortest
  rw [Int.sub_self] at hexponent
  generalize m.shortest = d at hexponent hread
  obtain ⟨digits, exponent⟩ := d
  obtain ⟨e, rfl⟩ := Int.eq_ofNat_of_zero_le hexponent
  exact ⟨digits, e, rfl, (isReadFrom_natCast_iff hunits hlt).mp hread⟩

end Magnitude

namespace Numeral

/-- A whole number in positional form has no point. -/
theorem ofDecimal_natCast {digits e : Nat} (hdigits : digits ≠ 0) (hlt : digits * Nat.pow 10 e < Nat.pow 10 21) :
    ofDecimal .default ⟨digits, e⟩ = Nat.toDigits 10 (digits * Nat.pow 10 e) := by
  have hpos : 0 < (Nat.toDigits 10 digits).length := Nat.length_toDigits_pos
  have hlength : (Nat.toDigits 10 digits).length + e ≤ 21 := by
    have hlength := (Nat.length_toDigits_le_iff (by decide) (by decide)).mpr hlt
    rwa [toDigits_mul_ten_pow hdigits, List.length_append, List.length_replicate] at hlength
  have hwhole : ((e : Int) + (Nat.toDigits 10 digits).length - 1).toNat + 1 =
      (Nat.toDigits 10 digits).length + e := by omega
  have hdrop : (Nat.toDigits 10 digits).drop ((Nat.toDigits 10 digits).length + e) = [] :=
    List.drop_eq_nil_iff.mpr (by omega)
  rw [toDigits_mul_ten_pow hdigits]
  unfold ofDecimal
  dsimp only
  rw [if_pos (by simp only [Form.default]; omega), if_neg (by omega), hwhole]
  unfold positional
  dsimp only
  rw [hdrop, if_pos rfl, List.append_nil, List.take_of_length_le (by omega), Nat.add_sub_cancel_left]

end Numeral

/-- **The text of a whole number** below `2 ^ 53` is its numeral. -/
theorem Double.toText_of_position_eq {x : Double} {n : Nat} (hlt : n < Nat.pow 2 53)
    (hx : x.position = some ((n * unitsPerOne : Nat) : Int)) : x.toText = toString n := by
  obtain ⟨negative, m, rfl, hunits, hsign⟩ :=
    exists_finite_of_toNat? ((toNat?_eq_some_iff (Nat.le_of_lt hlt)).mpr hx)
  rw [Nat.toString_eq_ofList_toDigits, toText]
  split
  · next hzero =>
    have hn : n = 0 := (Nat.mul_eq_zero.mp (hunits ▸ hzero)).resolve_right (Nat.ne_of_gt unitsPerOne_pos)
    rw [hn]
    rfl
  · next hne =>
    have hn : n ≠ 0 := by
      rintro rfl
      exact hne (hunits.trans (Nat.zero_mul _))
    obtain ⟨digits, e, hshortest, hvalue⟩ := Magnitude.shortest_of_units_eq hunits hlt hn
    have hdigits : digits ≠ 0 := by
      rintro rfl
      exact hn (hvalue.symm.trans (Nat.zero_mul _))
    have hpositional : digits * Nat.pow 10 e < Nat.pow 10 21 := hvalue ▸ Nat.lt_of_lt_of_le hlt (by decide)
    rw [hsign.resolve_right hne, hshortest, Numeral.ofDecimal_natCast hdigits hpositional, hvalue]
    rfl

end SlotScript
