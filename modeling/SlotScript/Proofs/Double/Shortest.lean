import SlotScript.Double.Decimal
import SlotScript.Proofs.Double.Rounding

/-!
# The shortest decimal reads back

Shifting digits into the exponent leaves what a decimal is read as (`ofDecimal_shift`), so dropping trailing
zeros does (`ofDecimal_normalize`). Each candidate of the search for the shortest decimal is checked, and the
last resort, the magnitude cut off at the finest place, is less than half a unit short of it. So the shortest
decimal of a magnitude is read as the magnitude (`isReadFrom_shortest`).

Its leading digit lies between the finest place (`leadingExponent_shortest_ge`) and the power of ten that no
double reaches (`IsReadFrom.leadingExponent_lt`).
-/

namespace SlotScript

namespace Decimal

theorem ratio_den_pos (d : Decimal) : 0 < d.ratio.2 := by
  unfold ratio
  split
  · exact Nat.one_pos
  · exact Nat.pow_pos (by decide)

/-- A zero at the end of the digits can go into the exponent. -/
theorem ratio_mul_ten (digits : Nat) (exponent : Int) :
    (ratio ⟨digits * 10, exponent⟩).1 * (ratio ⟨digits, exponent + 1⟩).2 =
      (ratio ⟨digits, exponent + 1⟩).1 * (ratio ⟨digits * 10, exponent⟩).2 := by
  cases exponent with
  | ofNat e =>
    have hnext : Int.ofNat e + 1 = Int.ofNat (e + 1) := rfl
    simp only [ratio, hnext, Nat.pow_eq, Nat.pow_succ]
    rw [Nat.mul_assoc digits, Nat.mul_comm 10]
  | negSucc e =>
    cases e with
    | zero =>
      have hnext : Int.negSucc 0 + 1 = Int.ofNat 0 := rfl
      simp only [ratio, hnext, Nat.pow_eq, Nat.pow_zero, Nat.mul_one, Nat.zero_add, Nat.pow_one]
      exact Nat.mul_right_comm digits 10 unitsPerOne
    | succ e =>
      have hnext : Int.negSucc (e + 1) + 1 = Int.negSucc e := rfl
      simp only [ratio, hnext, Nat.pow_eq, Nat.pow_succ (m := e + 1)]
      rw [Nat.mul_right_comm digits, Nat.mul_assoc, Nat.mul_comm 10]

/-- The power of ten of the leading digit. -/
def leadingExponent (d : Decimal) : Int := d.exponent + (Nat.toDigits 10 d.digits).length - 1

/-- A number of `l + 1` digits is at least `10 ^ l`. -/
theorem ten_pow_le_of_length_toDigits {n l : Nat} (hn : n ≠ 0) (h : (Nat.toDigits 10 n).length = l + 1) :
    Nat.pow 10 l ≤ n := by
  rcases Nat.eq_zero_or_pos l with rfl | hl
  · exact Nat.pos_of_ne_zero hn
  · refine Nat.not_lt.mp fun hlt => ?_
    have := (Nat.length_toDigits_le_iff (by decide) hl).mpr hlt
    omega

/-- A decimal is at least the power of ten of its leading digit. -/
theorem ten_pow_le_ratio (d : Decimal) {k : Nat} (hd : d.digits ≠ 0)
    (h : k ≤ d.leadingExponent) :
    Nat.pow 10 k * unitsPerOne * d.ratio.2 ≤ d.ratio.1 := by
  have hlength : 0 < (Nat.toDigits 10 d.digits).length := Nat.length_toDigits_pos
  obtain ⟨l, hl⟩ : ∃ l, (Nat.toDigits 10 d.digits).length = l + 1 :=
    ⟨_, (Nat.sub_add_cancel hlength).symm⟩
  have hdigits : Nat.pow 10 l ≤ d.digits := ten_pow_le_of_length_toDigits hd hl
  rw [leadingExponent, hl] at h
  obtain ⟨digits, exponent⟩ := d
  cases exponent with
  | ofNat e =>
    have hk : 10 ^ k ≤ 10 ^ l * 10 ^ e := by
      rw [← Nat.pow_add]
      exact Nat.pow_le_pow_right (by decide) (by simp only [Int.ofNat_eq_natCast] at h; omega)
    simp only [ratio, Nat.mul_one, Nat.pow_eq]
    exact Nat.mul_le_mul_right _ (Nat.le_trans hk (Nat.mul_le_mul_right _ hdigits))
  | negSucc e =>
    have hk : 10 ^ k * 10 ^ (e + 1) ≤ 10 ^ l := by
      rw [← Nat.pow_add]
      exact Nat.pow_le_pow_right (by decide) (by simp only [Int.negSucc_eq] at h; omega)
    simp only [ratio, Nat.pow_eq]
    rw [Nat.mul_right_comm]
    exact Nat.mul_le_mul_right _ (Nat.le_trans hk hdigits)

end Decimal

namespace Double

theorem ofDecimal_mul_ten (negative : Bool) (digits : Nat) (exponent : Int) :
    ofDecimal negative ⟨digits * 10, exponent⟩ = ofDecimal negative ⟨digits, exponent + 1⟩ :=
  round_congr_ratio negative (Decimal.ratio_den_pos _) (Decimal.ratio_den_pos _)
    (Decimal.ratio_mul_ten digits exponent)

/-- Zeros at the end of the digits can go into the exponent. -/
theorem ofDecimal_shift (negative : Bool) (digits zeros : Nat) (exponent : Int) :
    ofDecimal negative ⟨digits * Nat.pow 10 zeros, exponent⟩ =
      ofDecimal negative ⟨digits, exponent + zeros⟩ := by
  induction zeros generalizing exponent with
  | zero => simp
  | succ zeros ih =>
    rw [Nat.pow_eq, Nat.pow_succ, ← Nat.mul_assoc, ofDecimal_mul_ten, ← Nat.pow_eq, ih]
    congr 2
    omega

theorem ofDecimal_normalize (negative : Bool) (d : Decimal) :
    ofDecimal negative d.normalize = ofDecimal negative d := by
  induction d using Decimal.normalize.induct with
  | case1 d h ih =>
    rw [Decimal.normalize, if_pos h, ih, ← ofDecimal_mul_ten,
      Nat.div_mul_cancel (Nat.dvd_of_mod_eq_zero h.2)]
  | case2 d h => rw [Decimal.normalize, if_neg h]

end Double

namespace Magnitude

variable {m : Magnitude} {d : Decimal}

/-- What is read as a magnitude is read as it with either sign. -/
theorem IsReadFrom.ofDecimal_eq (h : m.IsReadFrom d) (negative : Bool) :
    Double.ofDecimal negative d = .finite negative m :=
  Double.round_eq_finite_iff.mpr (Double.round_eq_finite_iff.mp h)

theorem IsReadFrom.normalize (h : m.IsReadFrom d) : m.IsReadFrom d.normalize :=
  (Double.ofDecimal_normalize false d).trans h

/-- Two of the finest places are more than one unit. -/
theorem two_mul_unitsPerOne_lt : 2 * unitsPerOne < Nat.pow 10 finestPlace := by decide +kernel

/-- Cut off at the finest place, a magnitude is short of itself by less than half a unit. -/
theorem isReadFrom_places (m : Magnitude) : m.IsReadFrom ⟨m.places, -finestPlace⟩ := by
  have hle : m.places * unitsPerOne ≤ m.units * Nat.pow 10 finestPlace := Nat.div_mul_le_self _ _
  have hlt : m.units * Nat.pow 10 finestPlace < m.places * unitsPerOne + unitsPerOne :=
    Nat.lt_div_mul_add unitsPerOne_pos
  have hfine := two_mul_unitsPerOne_lt
  have hnear : 2 * (m.units * Nat.pow 10 finestPlace) <
      2 * (m.places * unitsPerOne) + Nat.pow 10 finestPlace := by omega
  obtain ⟨e, he⟩ : ∃ e, finestPlace = e + 1 := ⟨323, rfl⟩
  have hexponent : -((e + 1 : Nat) : Int) = .negSucc e := rfl
  rw [he] at hle hnear
  rw [he, hexponent]
  exact Double.round_eq_finite_iff.mpr (nearestUnits_of_near m.representable.1 hle hnear)

/-- A neighbour that the search finds was checked, and lies on the grid that was searched. -/
theorem neighbour?_eq_some {drop : Nat} (h : m.neighbour? drop = some d) :
    m.IsReadFrom d ∧ d.exponent = drop - finestPlace := by
  unfold neighbour? at h
  dsimp only at h
  split at h
  · next hlow =>
    cases h
    exact ⟨hlow.1, rfl⟩
  · split at h
    · next hhigh =>
      cases h
      exact ⟨hhigh, rfl⟩
    · cases h

/-- A grid is passed over only if neither neighbour on it is read as the magnitude. -/
theorem isSome_neighbour? {drop : Nat} (h : m.IsReadFrom ⟨m.places / Nat.pow 10 drop, drop - finestPlace⟩) :
    (m.neighbour? drop).isSome := by
  unfold neighbour?
  dsimp only
  split
  · rfl
  · next hlow =>
    rw [if_pos (Decidable.by_contra fun hhigh => hlow ⟨h, .inr hhigh⟩)]
    rfl

/-- The search from the coarsest grid on ends no later than at a grid with a neighbour. -/
theorem exists_findSome?_reverse_range {β : Type} {f : Nat → Option β} {n k : Nat} (hk : k < n)
    (h : (f k).isSome) : ∃ j b, k ≤ j ∧ f j = some b ∧ (List.range n).reverse.findSome? f = some b := by
  induction n with
  | zero => exact absurd hk (Nat.not_lt_zero k)
  | succ n ih =>
    rw [List.range_succ, List.reverse_concat, List.findSome?_cons]
    cases hn : f n with
    | some b => exact ⟨n, b, Nat.le_of_lt_succ hk, hn, rfl⟩
    | none =>
      have hne : k ≠ n := by
        rintro rfl
        rw [hn] at h
        cases h
      exact ih (by omega)

/-- The decimal that the search ends with, before trailing zeros are dropped. -/
theorem exists_shortest_eq_normalize (m : Magnitude) :
    ∃ d, m.shortest = d.normalize ∧ m.IsReadFrom d ∧ -finestPlace ≤ d.exponent := by
  refine ⟨_, rfl, ?_⟩
  cases hfind : m.grids.findSome? m.neighbour? with
  | none => exact ⟨m.isReadFrom_places, Int.le_refl _⟩
  | some d =>
    obtain ⟨drop, -, hneighbour⟩ := List.exists_of_findSome?_eq_some hfind
    obtain ⟨hread, hexponent⟩ := neighbour?_eq_some hneighbour
    exact ⟨hread, by rw [Option.getD_some, hexponent]; omega⟩

/-- **The shortest decimal of a magnitude is read as the magnitude.** -/
theorem isReadFrom_shortest (m : Magnitude) : m.IsReadFrom m.shortest := by
  obtain ⟨d, hd, hread, -⟩ := m.exists_shortest_eq_normalize
  rw [hd]
  exact hread.normalize

/-! ### Where the leading digit lies -/

theorem exponent_le_exponent_normalize (d : Decimal) : d.exponent ≤ d.normalize.exponent := by
  induction d using Decimal.normalize.induct with
  | case1 d h ih =>
    rw [Decimal.normalize, if_pos h]
    exact Int.le_trans (Int.le_add_one (Int.le_refl _)) ih
  | case2 d h =>
    have hsame : d.normalize = d := by rw [Decimal.normalize, if_neg h]
    exact Int.le_of_eq (congrArg Decimal.exponent hsame.symm)

/-- A decimal place at which the magnitude can be cut off bounds the place of the last digit. -/
theorem le_exponent_shortest {drop : Nat} (hdrop : drop < (Nat.toDigits 10 m.places).length)
    (h : m.IsReadFrom ⟨m.places / Nat.pow 10 drop, drop - finestPlace⟩) :
    drop - finestPlace ≤ m.shortest.exponent := by
  obtain ⟨j, d, hle, hd, hfind⟩ := exists_findSome?_reverse_range hdrop (isSome_neighbour? h)
  have hshortest : m.shortest = d.normalize := by
    rw [shortest, grids, hfind, Option.getD_some]
  have hexponent : d.exponent = j - finestPlace := (neighbour?_eq_some hd).2
  rw [hshortest]
  exact Int.le_trans (by omega) (exponent_le_exponent_normalize d)

theorem exponent_shortest_ge (m : Magnitude) : -finestPlace ≤ m.shortest.exponent := by
  obtain ⟨d, hd, -, hexponent⟩ := m.exists_shortest_eq_normalize
  rw [hd]
  exact Int.le_trans hexponent (exponent_le_exponent_normalize d)

/-- The digit zero is read as no magnitude but zero. -/
theorem IsReadFrom.digits_ne_zero (h : m.IsReadFrom d) (hm : m.units ≠ 0) : d.digits ≠ 0 := by
  intro hzero
  have hnum : d.ratio.1 = 0 := by
    unfold Decimal.ratio
    split <;> simp [hzero]
  have hunits : nearestUnits d.ratio.1 d.ratio.2 = m.units := Double.round_eq_finite_iff.mp h
  have hround : nearestUnits 0 d.ratio.2 = 0 :=
    nearestUnits_of_near (Nat.zero_mod _) (Nat.zero_le _) (by have := d.ratio_den_pos; omega)
  rw [hnum, hround] at hunits
  exact hm hunits.symm

/-- The power of ten that no double reaches. -/
def leadingLimit : Nat := 309

theorem unitLimit_le_ten_pow : unitLimit ≤ Nat.pow 10 leadingLimit * unitsPerOne := by decide +kernel

/-- The leading digit of what is read as a magnitude lies below the limit. -/
theorem IsReadFrom.leadingExponent_lt (h : m.IsReadFrom d) (hm : m.units ≠ 0) :
    d.leadingExponent < leadingLimit := by
  have hunits : nearestUnits d.ratio.1 d.ratio.2 = m.units := Double.round_eq_finite_iff.mp h
  refine Int.not_le.mp fun hle => Nat.not_le.mpr m.representable.2 ?_
  rw [← hunits]
  apply unitLimit_le_nearestUnits
  rw [Nat.le_div_iff_mul_le d.ratio_den_pos]
  exact Nat.le_trans (Nat.mul_le_mul_right _ unitLimit_le_ten_pow)
    (d.ten_pow_le_ratio (h.digits_ne_zero hm) hle)

theorem leadingExponent_shortest_ge (m : Magnitude) : -finestPlace ≤ m.shortest.leadingExponent := by
  have hexponent := m.exponent_shortest_ge
  have hlength : 0 < (Nat.toDigits 10 m.shortest.digits).length := Nat.length_toDigits_pos
  rw [Decimal.leadingExponent]
  omega

end Magnitude

end SlotScript
