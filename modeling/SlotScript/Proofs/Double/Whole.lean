import SlotScript.Double.Basic

/-!
# Whole numbers as doubles

A whole number up to `2 ^ 53` is a double exactly (`position_ofNat`), and equal to it are just the doubles
that stand for it (`numEq_ofNat_iff`): one, and for zero both zeros.

Numbers are compared by where they lie (`same_iff`, `numEq_iff`).
-/

namespace SlotScript

/-- One and the limit are powers of two, and a whole number of 53 digits lies below the limit. -/
theorem exists_exponents :
    ∃ s t, 53 + s < t ∧ unitsPerOne = Nat.pow 2 s ∧ unitLimit = Nat.pow 2 t :=
  ⟨1074, 2098, by omega, by decide +kernel, by decide +kernel⟩

theorem unitsPerOne_pos : 0 < unitsPerOne := by
  obtain ⟨s, _, -, hone, -⟩ := exists_exponents
  rw [hone]
  exact Nat.two_pow_pos s

theorem mul_unitsPerOne_lt {n : Nat} (h : n ≤ Nat.pow 2 53) : n * unitsPerOne < unitLimit := by
  obtain ⟨s, t, hlt, hone, hlimit⟩ := exists_exponents
  have hle : n * 2 ^ s ≤ 2 ^ 53 * 2 ^ s := Nat.mul_le_mul_right _ h
  rw [← Nat.pow_add] at hle
  rw [hone, hlimit]
  exact Nat.lt_of_le_of_lt hle (Nat.pow_lt_pow_right (by omega) hlt)

theorem unitLimit_pos : 0 < unitLimit :=
  Nat.lt_of_le_of_lt (Nat.zero_le _) (mul_unitsPerOne_lt (Nat.zero_le _))

theorem mul_unitsPerOne_mod_gridStep {n : Nat} (h : n ≤ Nat.pow 2 53) :
    n * unitsPerOne % gridStep (n * unitsPerOne) = 0 := by
  obtain ⟨s, _, -, hone, -⟩ := exists_exponents
  rw [hone]
  exact mod_gridStep_eq_zero h

theorem roundHalfEven_mul (q : Nat) {den : Nat} (h : 0 < den) : roundHalfEven (den * q) den = q := by
  simp only [roundHalfEven, Nat.mul_mod_right, Nat.mul_div_cancel_left q h, Nat.mul_zero, if_pos h]

/-- Rounding leaves what lies on the grid. -/
theorem nearestUnits_one {units : Nat} (h : units % gridStep units = 0) :
    nearestUnits units 1 = units := by
  have hpos : 0 < gridStep units := Nat.two_pow_pos _
  obtain ⟨q, hq⟩ := Nat.dvd_of_mod_eq_zero h
  have hround : roundHalfEven units (gridStep units) = q := by
    rw [← roundHalfEven_mul q hpos, ← hq]
  simp only [nearestUnits, Nat.div_one, Nat.one_mul, hround]
  rw [Nat.mul_comm, ← hq]

namespace Double

theorem position_round {units : Nat} (h : units % gridStep units = 0) (hlt : units < unitLimit) :
    (round false units 1).position = some (units : Int) := by
  have hsame := nearestUnits_one h
  rw [round, dif_pos (hsame.symm ▸ hlt)]
  simp only [position, signed, hsame, Bool.false_eq_true, if_false]

theorem position_ofNat {n : Nat} (h : n ≤ Nat.pow 2 53) :
    (ofNat n).position = some ((n * unitsPerOne : Nat) : Int) :=
  position_round (mul_unitsPerOne_mod_gridStep h) (mul_unitsPerOne_lt h)

/-- Zero lies in the middle. -/
theorem position_zero : zero.position = some 0 :=
  position_round (Nat.zero_mod _) unitLimit_pos

theorem position_eq_none_iff {x : Double} : x.position = none ↔ x = nan := by
  cases x <;> simp [position]

/-- Every number has a position. -/
theorem exists_position_eq_some {x : Double} (h : x ≠ nan) : ∃ p, x.position = some p := by
  cases x with
  | nan => exact absurd rfl h
  | infinity negative => exact ⟨_, rfl⟩
  | finite negative m => exact ⟨_, rfl⟩

theorem isZero_iff {x : Double} : x.isZero ↔ x.position = some 0 := decide_eq_true_iff

theorem isZero_finite {negative : Bool} {m : Magnitude} : (finite negative m).isZero ↔ m.units = 0 := by
  cases negative <;> simp [isZero_iff, position, signed]

theorem same_iff {x y : Double} : x.same y ↔ x.position = y.position := decide_eq_true_iff

theorem same_refl (x : Double) : x.same x := same_iff.mpr rfl

theorem same_comm (x y : Double) : x.same y = y.same x := by
  simp only [same, eq_comm]

theorem same_trans {x y z : Double} (hxy : x.same y) (hyz : y.same z) : x.same z :=
  same_iff.mpr ((same_iff.mp hxy).trans (same_iff.mp hyz))

theorem numEq_iff {x y : Double} : x.numEq y ↔ ∃ p, x.position = some p ∧ y.position = some p := by
  have hnumEq : x.numEq y ↔ x.compare? y = some .eq := decide_eq_true_iff
  rw [hnumEq, compare?]
  cases x.position with
  | none => simp
  | some p =>
    cases y.position with
    | none => simp
    | some q =>
      show some (compare p q) = some .eq ↔ _
      rw [Option.some_inj, Std.compare_eq_iff_eq]
      constructor
      · rintro rfl
        exact ⟨p, rfl, rfl⟩
      · rintro ⟨_, ⟨⟩, ⟨⟩⟩
        rfl

/-- A signed count of units makes a natural number of ones. -/
theorem signed_eq_mul_iff {negative : Bool} {units one n : Nat} (hone : 0 < one) :
    signed negative units = ((n * one : Nat) : Int) ↔
      (units % one = 0 ∧ (negative = false ∨ units = 0)) ∧ units / one = n := by
  have hmul : units = n * one ↔ units % one = 0 ∧ units / one = n := by
    constructor
    · rintro rfl
      exact ⟨Nat.mul_mod_left n one, Nat.mul_div_cancel n hone⟩
    · rintro ⟨hmod, rfl⟩
      exact (Nat.div_mul_cancel (Nat.dvd_of_mod_eq_zero hmod)).symm
  cases negative with
  | false =>
    have hpos : signed false units = units := rfl
    rw [hpos, Int.natCast_inj, hmul]
    simp
  | true =>
    have hneg : signed true units = -(units : Int) := rfl
    rw [hneg]
    constructor
    · intro h
      have hzero : units = 0 := by omega
      have hn : n * one = 0 := by omega
      subst hzero
      exact ⟨⟨Nat.zero_mod one, .inr rfl⟩,
        (Nat.zero_div one).trans ((Nat.mul_eq_zero.mp hn).resolve_right (by omega)).symm⟩
    · rintro ⟨⟨-, h⟩, rfl⟩
      have hzero : units = 0 := by simpa using h
      simp [hzero]

/-- What stands for a whole number is finite, with so many units, and no negative number. -/
theorem exists_finite_of_toNat? {x : Double} {n : Nat} (h : x.toNat? = some n) :
    ∃ negative m, x = finite negative m ∧ m.units = n * unitsPerOne ∧ (negative = false ∨ m.units = 0) := by
  cases x with
  | nan => cases h
  | infinity negative => cases h
  | finite negative m =>
    rw [toNat?] at h
    split at h
    · next hwhole =>
      cases h
      exact ⟨negative, m, rfl, (Nat.div_mul_cancel (Nat.dvd_of_mod_eq_zero hwhole.1)).symm, hwhole.2⟩
    · cases h

/-- The doubles that stand for a whole number lie where it does. -/
theorem toNat?_eq_some_iff {x : Double} {n : Nat} (h : n ≤ Nat.pow 2 53) :
    x.toNat? = some n ↔ x.position = some ((n * unitsPerOne : Nat) : Int) := by
  have hlimit := mul_unitsPerOne_lt h
  cases x with
  | nan => simp only [toNat?, position, reduceCtorEq]
  | infinity negative =>
    -- An infinity lies at the limit, which no whole number here reaches.
    have hne : signed negative unitLimit ≠ ((n * unitsPerOne : Nat) : Int) := by
      cases negative <;> simp only [signed, if_true, Bool.false_eq_true, if_false] <;> omega
    have hnone : ¬ (infinity negative).toNat? = some n := by simp only [toNat?, reduceCtorEq, not_false_eq_true]
    exact iff_of_false hnone fun heq => hne (Option.some.inj heq)
  | finite negative m =>
    rw [position, Option.some_inj, signed_eq_mul_iff unitsPerOne_pos, toNat?]
    split
    · next hwhole => simp [hwhole]
    · next hwhole => simp [hwhole]

/-- **Equal to a whole number** up to `2 ^ 53` are the doubles that stand for it. -/
theorem numEq_ofNat_iff {x : Double} {n : Nat} (h : n ≤ Nat.pow 2 53) :
    x.numEq (ofNat n) ↔ x.toNat? = some n := by
  rw [numEq_iff, position_ofNat h, toNat?_eq_some_iff h]
  constructor
  · rintro ⟨p, hx, hp⟩
    exact hx.trans hp.symm
  · exact fun hx => ⟨_, hx, rfl⟩

end Double

end SlotScript
