import SlotScript.Proofs.Double.Whole

/-!
# Rounding a ratio

What a ratio of units is rounded to depends on the ratio alone (`round_congr_ratio`). A ratio that falls
short of a double by less than half a unit is rounded to it (`nearestUnits_of_near`): no grid is finer than
one unit, and the grid below the double is no coarser than its own. A ratio that reaches the limit leaves the
finite numbers (`unitLimit_le_nearestUnits`).
-/

namespace SlotScript

/-! ### The nearest natural number -/

theorem roundHalfEven_mul_mul (num den : Nat) {c : Nat} (h : 0 < c) :
    roundHalfEven (num * c) (den * c) = roundHalfEven num den := by
  have hbelow : 2 * (num % den * c) < den * c ↔ 2 * (num % den) < den := by
    rw [← Nat.mul_assoc, Nat.mul_lt_mul_right h]
  have habove : den * c < 2 * (num % den * c) ↔ den < 2 * (num % den) := by
    rw [← Nat.mul_assoc, Nat.mul_lt_mul_right h]
  simp only [roundHalfEven, Nat.mul_div_mul_right _ _ h, Nat.mul_mod_mul_right, hbelow, habove]

theorem div_le_roundHalfEven (num den : Nat) : num / den ≤ roundHalfEven num den := by
  simp only [roundHalfEven]
  split
  · exact Nat.le_refl _
  · split <;> omega

/-- A ratio that is short of a natural number by less than one half goes up to it. -/
theorem roundHalfEven_of_near {num den k : Nat} (hle : num ≤ k * den)
    (hnear : 2 * (k * den) < 2 * num + den) : roundHalfEven num den = k := by
  have hdivmod : den * (num / den) + num % den = num := Nat.div_add_mod num den
  have hden : 0 < den := by
    rcases Nat.eq_zero_or_pos den with rfl | hpos
    · omega
    · exact hpos
  have hmod : num % den < den := Nat.mod_lt num hden
  have hq : num / den ≤ k := Nat.div_le_of_le_mul (Nat.mul_comm k den ▸ hle)
  rcases Nat.eq_or_lt_of_le hq with heq | hlt
  · -- The ratio is the number itself.
    rw [heq, Nat.mul_comm] at hdivmod
    have hzero : num % den = 0 := by omega
    simp only [roundHalfEven, hzero, heq, Nat.mul_zero, if_pos hden]
  · obtain ⟨j, rfl⟩ := Nat.exists_eq_add_of_lt hlt
    have hexpand : (num / den + j + 1) * den = den * (num / den) + j * den + den := by
      rw [Nat.add_mul, Nat.add_mul, Nat.one_mul, Nat.mul_comm (num / den)]
    have hj : j = 0 := by
      rcases Nat.eq_zero_or_pos j with rfl | hpos
      · rfl
      · have := Nat.le_mul_of_pos_left den hpos
        omega
    subst hj
    have hfar : den < 2 * (num % den) := by omega
    simp only [roundHalfEven, if_neg (Nat.lt_asymm hfar), if_pos hfar, Nat.add_zero]

/-! ### The grid -/

theorem gridStep_pos (n : Nat) : 0 < gridStep n := Nat.two_pow_pos _

theorem gridExponent_le_gridExponent {n n' : Nat} (h : n ≤ n') : gridExponent n ≤ gridExponent n' := by
  rcases Nat.eq_zero_or_pos n with rfl | hpos
  · exact Nat.le_trans (Nat.le_of_eq rfl) (Nat.zero_le _)
  · refine Nat.sub_le_sub_right ((Nat.le_log2 (by omega)).mpr ?_) 52
    exact Nat.le_trans (Nat.log2_self_le (Nat.ne_of_gt hpos)) h

/-- The grid of a smaller number contains that of a greater one. -/
theorem gridStep_dvd_gridStep {n n' : Nat} (h : n ≤ n') : gridStep n ∣ gridStep n' :=
  Nat.pow_dvd_pow 2 (gridExponent_le_gridExponent h)

theorem nearestUnits_mul_mul (num den : Nat) {c : Nat} (h : 0 < c) :
    nearestUnits (num * c) (den * c) = nearestUnits num den := by
  simp only [nearestUnits, Nat.mul_div_mul_right _ _ h, Nat.mul_right_comm den c,
    roundHalfEven_mul_mul _ _ h]

theorem nearestUnits_congr_ratio {num den num' den' : Nat} (hden : 0 < den) (hden' : 0 < den')
    (h : num * den' = num' * den) : nearestUnits num den = nearestUnits num' den' := by
  rw [← nearestUnits_mul_mul num den hden', h, Nat.mul_comm den den', nearestUnits_mul_mul num' den' hden]

/-- A ratio that is short of a count on the grid by less than half a unit is rounded to it. -/
theorem nearestUnits_of_near {units num den : Nat} (hgrid : units % gridStep units = 0)
    (hle : num ≤ units * den) (hnear : 2 * (units * den) < 2 * num + den) :
    nearestUnits num den = units := by
  have hdiv : num / den ≤ units := Nat.div_le_of_le_mul (Nat.mul_comm units den ▸ hle)
  obtain ⟨k, hk⟩ := Nat.dvd_trans (gridStep_dvd_gridStep hdiv) (Nat.dvd_of_mod_eq_zero hgrid)
  have hunits : k * (den * gridStep (num / den)) = units * den := by
    rw [Nat.mul_comm den, ← Nat.mul_assoc, Nat.mul_comm k, ← hk]
  have hstep : den ≤ den * gridStep (num / den) := Nat.le_mul_of_pos_right den (gridStep_pos _)
  have hround : roundHalfEven num (den * gridStep (num / den)) = k :=
    roundHalfEven_of_near (hunits ▸ hle) (by rw [hunits]; omega)
  rw [nearestUnits, hround, Nat.mul_comm]
  exact hk.symm

/-- A ratio that reaches a power of two from the precision on is not rounded below it. -/
theorem two_pow_le_nearestUnits {num den t : Nat} (ht : 52 ≤ t) (h : Nat.pow 2 t ≤ num / den) :
    Nat.pow 2 t ≤ nearestUnits num den := by
  have hne : num / den ≠ 0 := Nat.ne_of_gt (Nat.lt_of_lt_of_le (Nat.two_pow_pos t) h)
  have hlog : t ≤ (num / den).log2 := (Nat.le_log2 hne).mpr h
  have hstep : 2 ^ (num / den).log2 = 2 ^ 52 * gridStep (num / den) := by
    rw [gridStep, Nat.pow_eq, ← Nat.pow_add, gridExponent]
    congr 1
    omega
  have hsignificand : 2 ^ 52 ≤ roundHalfEven num (den * gridStep (num / den)) := by
    refine Nat.le_trans ?_ (div_le_roundHalfEven _ _)
    rw [← Nat.div_div_eq_div_mul, Nat.le_div_iff_mul_le (gridStep_pos _), ← hstep]
    exact Nat.log2_self_le hne
  calc 2 ^ t ≤ 2 ^ (num / den).log2 := Nat.pow_le_pow_right (by omega) hlog
    _ = 2 ^ 52 * gridStep (num / den) := hstep
    _ ≤ nearestUnits num den := Nat.mul_le_mul_right _ hsignificand

/-- A ratio that reaches the limit stays there. -/
theorem unitLimit_le_nearestUnits {num den : Nat} (h : unitLimit ≤ num / den) :
    unitLimit ≤ nearestUnits num den := by
  obtain ⟨s, t, hlt, -, hlimit⟩ := exists_exponents
  rw [hlimit] at h ⊢
  exact two_pow_le_nearestUnits (by omega) h

/-! ### Doubles -/

namespace Double

theorem round_eq_finite_iff {negative : Bool} {num den : Nat} {m : Magnitude} :
    round negative num den = finite negative m ↔ nearestUnits num den = m.units := by
  unfold round
  split
  · rw [Double.finite.injEq, Magnitude.ext_iff]
    exact and_iff_right rfl
  · next hlimit => exact iff_of_false Double.noConfusion fun heq => hlimit (heq ▸ m.representable.2)

theorem round_congr_ratio (negative : Bool) {num den num' den' : Nat} (hden : 0 < den)
    (hden' : 0 < den') (h : num * den' = num' * den) :
    round negative num den = round negative num' den' := by
  have hunits := nearestUnits_congr_ratio hden hden' h
  simp only [round, hunits]

/-- Rounding gives a number. -/
theorem round_ne_nan (negative : Bool) (num den : Nat) : round negative num den ≠ nan := by
  unfold round
  split <;> exact Double.noConfusion

theorem zero_ne_nan : zero ≠ nan := round_ne_nan false 0 1

/-- Small natural numbers are finite. -/
theorem exists_ofNat_eq_finite {n : Nat} (h : n ≤ Nat.pow 2 53) :
    ∃ m, ofNat n = finite false m ∧ m.units = n * unitsPerOne := by
  refine ⟨⟨n * unitsPerOne, mul_unitsPerOne_mod_gridStep h, mul_unitsPerOne_lt h⟩, ?_, rfl⟩
  exact round_eq_finite_iff.mpr (nearestUnits_one (mul_unitsPerOne_mod_gridStep h))

end Double

end SlotScript
