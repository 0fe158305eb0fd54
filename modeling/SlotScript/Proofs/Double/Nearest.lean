import SlotScript.Proofs.Double.Rounding

/-!
# What a ratio is rounded to is nearest to it

`Double.IsNearest num den x`: no double is nearer to `num / den` units than `x`, and where another one is just as
near, `x` is the even one. An infinity counts as the double that follows the greatest finite one, so what is
nearer to the limit than to any finite double overflows.

That rounding satisfies this (`Double.isNearest_round`) is shown on the natural numbers first, where a number is
at most half a step away and at least a step from any other. Every double from the leading power of two of the
ratio on lies on the grid of the ratio; a smaller one is farther away than that power of two.
-/

namespace SlotScript

/-- The distance between `num / den` and `p`, in parts of one `den`-th. -/
def gap (num den : Nat) (p : Int) : Nat := (num - den * p).natAbs

theorem gap_natCast (num den k : Nat) : gap num den k = (num - den * k) + (den * k - num) := by
  unfold gap
  rw [← Int.natCast_mul]
  omega

/-- On multiples of a step, distances are those of the multipliers. -/
theorem gap_mul (num den k step : Nat) : gap num den ((k * step : Nat) : Int) = gap num (den * step) k := by
  rw [gap_natCast, gap_natCast, Nat.mul_comm k, Nat.mul_assoc]

/-! ### On the natural numbers -/

theorem gap_div (num den : Nat) : gap num den ((num / den : Nat) : Int) = num % den := by
  have hdivmod : den * (num / den) + num % den = num := Nat.div_add_mod num den
  rw [gap_natCast]
  omega

theorem gap_div_succ (num : Nat) {den : Nat} (hden : 0 < den) :
    gap num den ((num / den + 1 : Nat) : Int) = den - num % den := by
  have hdivmod : den * (num / den) + num % den = num := Nat.div_add_mod num den
  have hmod : num % den < den := Nat.mod_lt num hden
  rw [gap_natCast, Nat.mul_succ]
  omega

/-- The nearest natural number is at most half a step away, and even if it is just that far. -/
theorem gap_roundHalfEven (num : Nat) {den : Nat} (hden : 0 < den) :
    2 * gap num den (roundHalfEven num den) ≤ den ∧
      (2 * gap num den (roundHalfEven num den) = den → roundHalfEven num den % 2 = 0) := by
  have hdown := gap_div num den
  have hup := gap_div_succ num hden
  have hmod : num % den < den := Nat.mod_lt num hden
  unfold roundHalfEven
  dsimp only
  split
  · rw [hdown]
    omega
  · split
    · rw [hup]
      omega
    · rcases Nat.mod_two_eq_zero_or_one (num / den) with heven | hodd
      · rw [heven, Nat.add_zero, hdown]
        omega
      · rw [hodd, hup]
        omega

/-- Two numbers are at least a step apart. -/
theorem le_gap_add_gap (num den : Nat) {j k : Nat} (h : j ≠ k) : den ≤ gap num den j + gap num den k := by
  have hapart : den * j + den ≤ den * k ∨ den * k + den ≤ den * j := by
    rcases Nat.lt_or_gt_of_ne h with hlt | hgt
    · exact .inl (Nat.mul_succ den j ▸ Nat.mul_le_mul_left den hlt)
    · exact .inr (Nat.mul_succ den k ▸ Nat.mul_le_mul_left den hgt)
  rw [gap_natCast, gap_natCast]
  omega

/-! ### On the grid -/

/-- Of two neighbouring doubles just one is an even multiple of its grid. -/
def IsEven (units : Nat) : Prop := units % (2 * gridStep units) = 0

instance (units : Nat) : Decidable (IsEven units) := inferInstanceAs (Decidable (_ = _))

/-- Twice a number of 52 bits, on any place, is an even multiple of its grid. -/
theorem isEven_mul_two_pow {m s : Nat} (h : m ≤ Nat.pow 2 52) : IsEven (m * Nat.pow 2 (s + 1)) := by
  simp only [IsEven, gridStep, Nat.pow_eq, ← Nat.pow_succ'] at h ⊢
  refine Nat.mod_eq_zero_of_dvd ?_
  rcases Nat.lt_or_eq_of_le h with hlt | rfl
  · have hdouble : m * 2 ^ (s + 1) = 2 * m * 2 ^ s := by
      rw [Nat.pow_succ', Nat.mul_comm 2 m, Nat.mul_assoc]
    have hsmall : 2 * m < 2 ^ 53 := by
      rw [Nat.pow_succ']
      exact Nat.mul_lt_mul_of_pos_left hlt (by decide)
    have hexponent : gridExponent (m * 2 ^ (s + 1)) ≤ s := hdouble ▸ gridExponent_mul_two_pow_le hsmall
    exact Nat.dvd_mul_left_of_dvd (Nat.pow_dvd_pow 2 (by omega)) m
  · simp only [← Nat.pow_add, gridExponent, Nat.log2_two_pow]
    exact Nat.pow_dvd_pow 2 (by omega)

/-- What lies on a grid of its own lies on that of a smaller number, down to the leading power of two of the
latter. -/
theorem gridStep_dvd_of_log2_le {n u : Nat} (hu : u % gridStep u = 0) (h : Nat.pow 2 n.log2 ≤ u) :
    gridStep n ∣ u := by
  have hleading : gridStep (Nat.pow 2 n.log2) = gridStep n := by
    simp only [gridStep, gridExponent, Nat.pow_eq, Nat.log2_two_pow]
  rw [← hleading]
  exact Nat.dvd_trans (gridStep_dvd_gridStep h) (Nat.dvd_of_mod_eq_zero hu)

/-- The even one of two equally near multiples of the step at the ratio is taken. -/
theorem gap_nearestUnits_of_dvd (num : Nat) {den u : Nat} (hden : 0 < den) (hu : gridStep (num / den) ∣ u) :
    gap num den (nearestUnits num den) ≤ gap num den u ∧
      (gap num den (nearestUnits num den) = gap num den u →
        u = nearestUnits num den ∨ IsEven (nearestUnits num den)) := by
  obtain ⟨k, rfl⟩ := hu
  rw [Nat.mul_comm, nearestUnits, gap_mul, gap_mul]
  obtain ⟨hhalf, heven⟩ := gap_roundHalfEven num (Nat.mul_pos hden (gridStep_pos (num / den)))
  by_cases hk : k = roundHalfEven num (den * gridStep (num / den))
  · rw [hk]
    exact ⟨Nat.le_refl _, fun _ => .inl rfl⟩
  · have hapart := le_gap_add_gap num (den * gridStep (num / den)) hk
    refine ⟨by omega, fun htie => .inr ?_⟩
    obtain ⟨m, hm⟩ := Nat.dvd_of_mod_eq_zero (heven (by omega))
    have hbits := roundHalfEven_gridStep_le num den
    have hsmall : m ≤ Nat.pow 2 52 := by
      rw [hm, Nat.pow_eq, Nat.pow_succ'] at hbits
      exact Nat.le_of_mul_le_mul_left hbits (by decide)
    have hplace : roundHalfEven num (den * gridStep (num / den)) * gridStep (num / den) =
        m * Nat.pow 2 (gridExponent (num / den) + 1) := by
      rw [hm, gridStep, Nat.pow_eq, Nat.pow_eq, Nat.pow_succ', Nat.mul_left_comm m, Nat.mul_assoc]
    rw [hplace]
    exact isEven_mul_two_pow hsmall

/-- **No count on the grid is nearer** to a ratio than the one that it is rounded to, and where another one is just
as near, this one is even. -/
theorem gap_nearestUnits (num : Nat) {den u : Nat} (hden : 0 < den) (hu : u % gridStep u = 0) :
    gap num den (nearestUnits num den) ≤ gap num den u ∧
      (gap num den (nearestUnits num den) = gap num den u →
        u = nearestUnits num den ∨ IsEven (nearestUnits num den)) := by
  by_cases hlow : Nat.pow 2 (num / den).log2 ≤ u
  · exact gap_nearestUnits_of_dvd num hden (gridStep_dvd_of_log2_le hu hlow)
  by_cases hzero : num / den = 0
  · have hu : u = 0 := by simpa [hzero] using hlow
    exact gap_nearestUnits_of_dvd num hden (hu ▸ Nat.dvd_zero _)
  -- The leading power of two of the ratio is strictly nearer than what lies below it.
  obtain ⟨hleading, -⟩ := gap_nearestUnits_of_dvd num hden (Nat.pow_dvd_pow 2 (Nat.sub_le (num / den).log2 52))
  have hreach : den * 2 ^ (num / den).log2 ≤ num := by
    rw [Nat.mul_comm]
    exact Nat.mul_le_of_le_div den _ _ (Nat.log2_self_le hzero)
  have hbelow : den * u < den * 2 ^ (num / den).log2 := Nat.mul_lt_mul_of_pos_left (Nat.not_le.mp hlow) hden
  rw [gap_natCast num den (2 ^ _)] at hleading
  rw [gap_natCast num den u]
  omega

/-! ### Doubles -/

theorem exists_unitLimit_eq_two_pow : ∃ t, unitLimit = Nat.pow 2 (t + 1) := by
  obtain ⟨s, t, hlt, -, hlimit⟩ := exists_exponents
  exact ⟨t - 1, by rw [hlimit, Nat.sub_add_cancel (by omega)]⟩

theorem isEven_unitLimit : IsEven unitLimit := by
  obtain ⟨t, ht⟩ := exists_unitLimit_eq_two_pow
  rw [ht, ← Nat.one_mul (Nat.pow 2 _)]
  exact isEven_mul_two_pow (by decide)

theorem IsEven.on_grid {units : Nat} (h : IsEven units) : units % gridStep units = 0 :=
  Nat.mod_eq_zero_of_dvd (Nat.dvd_trans (Nat.dvd_mul_left _ _) (Nat.dvd_of_mod_eq_zero h))

namespace Double

/-- No double is nearer to `num / den` units than `x`, and where another one is just as near, `x` is even. -/
def IsNearest (num den : Nat) (x : Double) : Prop :=
  ∃ p, x.position = some p ∧ ∀ (y : Double) (q : Int), y.position = some q →
    gap num den p ≤ gap num den q ∧ (gap num den p = gap num den q → q = p ∨ IsEven p.natAbs)

/-- A number is negative, or lies on the grid up to the limit. -/
theorem position_cases {y : Double} {q : Int} (h : y.position = some q) :
    (∃ units : Nat, q = units ∧ units % gridStep units = 0 ∧ units ≤ unitLimit) ∨
      ∃ units : Nat, 0 < units ∧ q = -(units : Int) := by
  obtain ⟨negative, units, rfl, hgrid, hle⟩ : ∃ negative units, q = signed negative units ∧
      units % gridStep units = 0 ∧ units ≤ unitLimit := by
    cases y with
    | nan => cases h
    | infinity negative =>
      exact ⟨negative, unitLimit, (Option.some.inj h).symm, isEven_unitLimit.on_grid, Nat.le_refl _⟩
    | finite negative m =>
      exact ⟨negative, m.units, (Option.some.inj h).symm, m.representable.1, Nat.le_of_lt m.representable.2⟩
  cases negative with
  | false => exact .inl ⟨units, rfl, hgrid, hle⟩
  | true =>
    rcases Nat.eq_zero_or_pos units with rfl | hpos
    · exact .inl ⟨0, rfl, hgrid, hle⟩
    · exact .inr ⟨units, hpos, rfl⟩

/-- A ratio is rounded to the nearest count on the grid, or lies beyond the limit. -/
theorem position_round_eq (num : Nat) {den : Nat} (hden : 0 < den) :
    (round false num den).position = some (nearestUnits num den : Int) ∨
      (round false num den).position = some (unitLimit : Int) ∧ den * unitLimit ≤ num := by
  unfold round
  split
  · exact .inl rfl
  · next hlimit =>
    by_cases hbeyond : den * unitLimit ≤ num
    · exact .inr ⟨rfl, hbeyond⟩
    · have hle : den * unitLimit ≤ den * nearestUnits num den := Nat.mul_le_mul_left den (Nat.not_lt.mp hlimit)
      obtain ⟨hnearest, -⟩ := gap_nearestUnits num hden isEven_unitLimit.on_grid
      rw [gap_natCast, gap_natCast] at hnearest
      have heq : nearestUnits num den = unitLimit := Nat.eq_of_mul_eq_mul_left hden (by omega)
      rw [heq]
      exact .inl rfl

theorem gap_neg (num den units : Nat) : gap num den (-(units : Int)) = num + den * units := by
  unfold gap
  rw [Int.mul_neg, ← Int.natCast_mul]
  omega

/-- What is negative is farther away than zero. -/
theorem gap_zero_lt_gap_neg (num : Nat) {den units : Nat} (hden : 0 < den) (hunits : 0 < units) :
    gap num den ((0 : Nat) : Int) < gap num den (-(units : Int)) := by
  rw [gap_neg, gap_natCast, Nat.mul_zero]
  have := Nat.mul_pos hden hunits
  omega

/-- **Rounding goes to the nearest double**, and to the even one of two. -/
theorem isNearest_round (num : Nat) {den : Nat} (hden : 0 < den) : IsNearest num den (round false num den) := by
  rcases position_round_eq num hden with hposition | ⟨hposition, hbeyond⟩
  · refine ⟨_, hposition, fun y q hy => ?_⟩
    rw [Int.natAbs_natCast]
    rcases position_cases hy with ⟨units, rfl, hgrid, -⟩ | ⟨units, hpos, rfl⟩
    · obtain ⟨hle, htie⟩ := gap_nearestUnits num hden hgrid
      exact ⟨hle, fun heq => (htie heq).imp_left (congrArg Int.ofNat)⟩
    · obtain ⟨hzero, -⟩ := gap_nearestUnits num hden (Nat.zero_mod (gridStep 0))
      have hneg := gap_zero_lt_gap_neg num hden hpos
      exact ⟨by omega, fun heq => by omega⟩
  · refine ⟨_, hposition, fun y q hy => ?_⟩
    rw [Int.natAbs_natCast]
    refine ⟨?_, fun _ => .inr isEven_unitLimit⟩
    rcases position_cases hy with ⟨units, rfl, -, hle⟩ | ⟨units, -, rfl⟩
    · have hmul : den * units ≤ den * unitLimit := Nat.mul_le_mul_left den hle
      rw [gap_natCast, gap_natCast]
      omega
    · rw [gap_neg, gap_natCast]
      omega

end Double

end SlotScript
