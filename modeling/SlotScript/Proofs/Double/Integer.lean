import SlotScript.Double.Arithmetic
import SlotScript.Proofs.Double.Rounding

/-!
# Integers as doubles

Rounding an integer does not see a power of two as a factor (`nearestUnits_mul_two_pow`). Of an integer that has
more than 53 bits, what follows below its last digit is seen in one case only: the integer lies halfway between
two doubles, and the lower one is even (`nearestUnits_mul_add`). Then anything that follows takes the integer
up, where alone it goes down (`Double.ofNat_mul_add_eq_iff`).
-/

namespace SlotScript

/-! ### The grid of an integer -/

theorem gridExponent_mul_add {n s rest : Nat} (hn : Nat.pow 2 52 ≤ n) (hrest : rest < Nat.pow 2 s) :
    gridExponent (n * Nat.pow 2 s + rest) = gridExponent n + s := by
  simp only [Nat.pow_eq] at *
  have hne : n ≠ 0 := Nat.ne_of_gt (Nat.lt_of_lt_of_le (Nat.two_pow_pos 52) hn)
  have hlog : 52 ≤ n.log2 := (Nat.le_log2 hne).mpr hn
  have hlow : 2 ^ (n.log2 + s) ≤ n * 2 ^ s := by
    rw [Nat.pow_add]
    exact Nat.mul_le_mul_right _ (Nat.log2_self_le hne)
  have hhigh : n * 2 ^ s + 2 ^ s ≤ 2 ^ (n.log2 + s + 1) := by
    rw [Nat.add_right_comm, Nat.pow_add 2 (n.log2 + 1), ← Nat.succ_mul]
    exact Nat.mul_le_mul_right _ Nat.lt_log2_self
  have hpos : 0 < 2 ^ (n.log2 + s) := Nat.two_pow_pos _
  have hlog2 : (n * 2 ^ s + rest).log2 = n.log2 + s :=
    (Nat.log2_eq_iff (by omega)).mpr ⟨by omega, by omega⟩
  rw [gridExponent, hlog2, gridExponent]
  omega

theorem gridStep_mul_add {n s rest : Nat} (hn : Nat.pow 2 52 ≤ n) (hrest : rest < Nat.pow 2 s) :
    gridStep (n * Nat.pow 2 s + rest) = gridStep n * Nat.pow 2 s := by
  rw [gridStep, gridExponent_mul_add hn hrest, gridStep, Nat.pow_eq, Nat.pow_eq, Nat.pow_eq, Nat.pow_add]

/-! ### What follows below the last digit -/

/-- The integer lies halfway between two doubles, of which the lower one is even. -/
def IsLowerTie (n : Nat) : Prop := 2 * (n % gridStep n) = gridStep n ∧ n / gridStep n % 2 = 0

instance (n : Nat) : Decidable (IsLowerTie n) := inferInstanceAs (Decidable (_ ∧ _))

/-- Below half a step nothing is seen of what follows, and above it neither; it decides a tie. -/
theorem roundHalfEven_mul_add (n : Nat) {half c rest : Nat} (hhalf : 0 < half) (hrest : rest < c) :
    roundHalfEven (n * c + rest) (2 * half * c) = roundHalfEven n (2 * half) +
      if rest ≠ 0 ∧ 2 * (n % (2 * half)) = 2 * half ∧ n / (2 * half) % 2 = 0 then 1 else 0 := by
  have hcut : (n * c + rest) / c = n := by
    rw [Nat.mul_comm, Nat.mul_add_div (by omega), Nat.div_eq_of_lt hrest, Nat.add_zero]
  have hdiv : (n * c + rest) / (2 * half * c) = n / (2 * half) := by
    rw [Nat.mul_comm (2 * half) c, ← Nat.div_div_eq_div_mul, hcut]
  have hmod : (n * c + rest) % (2 * half * c) = n % (2 * half) * c + rest := by
    rw [Nat.mul_comm (2 * half) c, Nat.mod_mul, hcut, Nat.mul_comm n, Nat.mul_add_mod,
      Nat.mod_eq_of_lt hrest, Nat.mul_comm c, Nat.add_comm]
  have hdouble : 2 * half * c = 2 * (half * c) := Nat.mul_assoc 2 half c
  have hapart {j k : Nat} (hlt : j < k) : j * c + c ≤ k * c := Nat.succ_mul j c ▸ Nat.mul_le_mul_right c hlt
  have hbelow (h : Nat) : 2 * (h * c + rest) < 2 * half * c ↔ h < half := by
    rcases Nat.lt_or_ge h half with hlt | hge
    · have := hapart hlt
      omega
    · have := Nat.mul_le_mul_right c hge
      omega
  have habove (h : Nat) : 2 * half * c < 2 * (h * c + rest) ↔ half < h ∨ half = h ∧ rest ≠ 0 := by
    rcases Nat.lt_trichotomy h half with hlt | rfl | hgt
    · have := hapart hlt
      omega
    · omega
    · have := hapart hgt
      omega
  simp only [roundHalfEven, hdiv, hmod, hbelow, habove]
  grind

/-- From 54 bits on the step is even. -/
theorem exists_gridStep_eq_two_mul {n : Nat} (hn : Nat.pow 2 53 ≤ n) :
    ∃ half, 0 < half ∧ gridStep n = 2 * half := by
  have hlog : 53 ≤ n.log2 := (Nat.le_log2 (Nat.ne_of_gt (Nat.lt_of_lt_of_le (Nat.two_pow_pos 53) hn))).mpr hn
  refine ⟨Nat.pow 2 (n.log2 - 53), Nat.two_pow_pos _, ?_⟩
  rw [gridStep, gridExponent, Nat.pow_eq, Nat.pow_eq, ← Nat.pow_succ']
  congr 1
  omega

/-- **What follows an integer of more than 53 bits** is seen only where the integer is halfway between two
doubles and would go down. -/
theorem nearestUnits_mul_add {n s rest : Nat} (hn : Nat.pow 2 53 ≤ n) (hrest : rest < Nat.pow 2 s) :
    nearestUnits (n * Nat.pow 2 s + rest) 1 =
      (nearestUnits n 1 + if rest ≠ 0 ∧ IsLowerTie n then gridStep n else 0) * Nat.pow 2 s := by
  obtain ⟨half, hhalf, hstep⟩ := exists_gridStep_eq_two_mul hn
  have hgrid := gridStep_mul_add (Nat.le_trans (by decide) hn) hrest
  simp only [nearestUnits, Nat.div_one, Nat.one_mul, hgrid, IsLowerTie, hstep,
    roundHalfEven_mul_add n hhalf hrest, ← Nat.mul_assoc]
  congr 1
  split <;> simp [Nat.add_mul]

/-- Up to 53 bits an integer is on its grid. -/
theorem nearestUnits_of_le {n : Nat} (h : n ≤ Nat.pow 2 53) : nearestUnits n 1 = n := by
  have hgrid : n * Nat.pow 2 0 % gridStep (n * Nat.pow 2 0) = 0 := mod_gridStep_eq_zero h
  rw [Nat.pow_eq, Nat.pow_zero, Nat.mul_one] at hgrid
  exact nearestUnits_one hgrid

/-- What is rounded to an integer of 53 bits is that integer. -/
theorem nearestUnits_eq_iff {n k : Nat} (hk : k < Nat.pow 2 53) : nearestUnits n 1 = k ↔ n = k := by
  constructor
  · rintro rfl
    rcases Nat.lt_or_ge n (Nat.pow 2 53) with hlt | hge
    · exact (nearestUnits_of_le (Nat.le_of_lt hlt)).symm
    · have := @two_pow_le_nearestUnits n 1 53 (by decide) (by rwa [Nat.div_one])
      exact absurd (Nat.lt_of_lt_of_le hk this) (Nat.lt_irrefl _)
  · rintro rfl
    exact nearestUnits_of_le (Nat.le_of_lt hk)

/-- A power of two as a factor is not seen. -/
theorem nearestUnits_mul_two_pow (n s : Nat) :
    nearestUnits (n * Nat.pow 2 s) 1 = nearestUnits n 1 * Nat.pow 2 s := by
  rcases Nat.lt_or_ge n (Nat.pow 2 53) with hlt | hge
  · rw [nearestUnits_of_le (Nat.le_of_lt hlt)]
    exact nearestUnits_one (mod_gridStep_eq_zero (Nat.le_of_lt hlt))
  · have hzero := nearestUnits_mul_add hge (Nat.two_pow_pos s)
    simpa using hzero

theorem nearestUnits_mul_unitsPerOne (n : Nat) :
    nearestUnits (n * unitsPerOne) 1 = nearestUnits n 1 * unitsPerOne := by
  obtain ⟨s, _, -, hone, -⟩ := exists_exponents
  rw [hone, nearestUnits_mul_two_pow]

/-! ### Doubles -/

namespace Double

/-- The double nearest to an integer is the integer on its grid, unless that has left the finite numbers. -/
theorem ofNat_cases (n : Nat) :
    (∃ m, ofNat n = finite false m ∧ m.units = nearestUnits n 1 * unitsPerOne) ∨
      ofNat n = infinity false ∧ unitLimit ≤ nearestUnits n 1 * unitsPerOne := by
  rw [← nearestUnits_mul_unitsPerOne]
  unfold ofNat round
  split
  · exact .inl ⟨_, rfl, rfl⟩
  · next hlimit => exact .inr ⟨rfl, Nat.not_lt.mp hlimit⟩

theorem ofNat_congr {n k : Nat} (h : nearestUnits n 1 = nearestUnits k 1) : ofNat n = ofNat k := by
  have hunits := nearestUnits_mul_unitsPerOne n
  rw [h, ← nearestUnits_mul_unitsPerOne] at hunits
  simp only [ofNat, round, hunits]

/-- **What follows an integer of more than 53 bits** changes the double exactly where the integer is a tie that
would go down, and finite. -/
theorem ofNat_mul_add_eq_iff {n s rest : Nat} (hn : Nat.pow 2 53 ≤ n) (hrest : rest < Nat.pow 2 s) :
    ofNat (n * Nat.pow 2 s + rest) = ofNat (n * Nat.pow 2 s) ↔
      ¬ (rest ≠ 0 ∧ IsLowerTie n ∧ ofNat (n * Nat.pow 2 s) ≠ infinity false) := by
  have hlong := nearestUnits_mul_add hn hrest
  have hshort := nearestUnits_mul_two_pow n s
  by_cases hup : rest ≠ 0 ∧ IsLowerTie n
  · rw [if_pos hup] at hlong
    have hlt : nearestUnits (n * Nat.pow 2 s) 1 < nearestUnits (n * Nat.pow 2 s + rest) 1 := by
      rw [hshort, hlong]
      exact Nat.mul_lt_mul_of_pos_right (Nat.lt_add_of_pos_right (gridStep_pos n)) (Nat.two_pow_pos s)
    have hltUnits := Nat.mul_lt_mul_of_pos_right hlt unitsPerOne_pos
    rcases ofNat_cases (n * Nat.pow 2 s) with ⟨m, hm, hunits⟩ | ⟨hinfinite, hlimit⟩
    · refine iff_of_false (fun heq => ?_) fun h => h ⟨hup.1, hup.2, hm ▸ Double.noConfusion⟩
      rcases ofNat_cases (n * Nat.pow 2 s + rest) with ⟨m', hm', hunits'⟩ | ⟨hinfinite', -⟩
      · rw [hm, hm', Double.finite.injEq] at heq
        rw [← hunits', ← hunits, heq.2] at hltUnits
        exact Nat.lt_irrefl _ hltUnits
      · rw [hm, hinfinite'] at heq
        cases heq
    · refine iff_of_true ?_ fun h => h.2.2 hinfinite
      rcases ofNat_cases (n * Nat.pow 2 s + rest) with ⟨m', -, hunits'⟩ | ⟨hinfinite', -⟩
      · have hfinite := m'.representable.2
        omega
      · rw [hinfinite', hinfinite]
  · rw [if_neg hup, Nat.add_zero, ← hshort] at hlong
    simp only [ofNat_congr hlong, ← and_assoc, hup, false_and, not_false_eq_true]

/-! ### A digit more -/

theorem roundSigned_natCast (num : Nat) {den : Nat} (hden : 0 < den) :
    roundSigned false num den = round false num den := by
  unfold roundSigned
  split
  · next hzero =>
    rw [Int.natCast_eq_zero.mp hzero]
    exact round_congr_ratio false Nat.one_pos hden (by rw [Nat.zero_mul, Nat.zero_mul])
  · rw [decide_eq_false (Int.not_lt.mpr (Int.natCast_nonneg num)), Int.natAbs_natCast]

/-- One more digit is put after the integer that a double stands for. -/
theorem ofNat_mulAdd {n radix digit : Nat} (hradix : radix ≤ Nat.pow 2 53) (hdigit : digit ≤ Nat.pow 2 53)
    (hfinite : ofNat n ≠ infinity false) :
    (ofNat n).mulAdd (ofNat radix) (ofNat digit) = ofNat (nearestUnits n 1 * radix + digit) := by
  obtain ⟨m, hm, hunits⟩ := (ofNat_cases n).resolve_right fun h => hfinite h.1
  obtain ⟨r, hr, hrUnits⟩ := exists_ofNat_eq_finite hradix
  obtain ⟨d, hd, hdUnits⟩ := exists_ofNat_eq_finite hdigit
  have hsum : signed false (m.units * r.units) + signed false (d.units * unitsPerOne) =
      (((nearestUnits n 1 * radix + digit) * unitsPerOne * unitsPerOne : Nat) : Int) := by
    have hproduct : nearestUnits n 1 * unitsPerOne * (radix * unitsPerOne) =
        nearestUnits n 1 * radix * unitsPerOne * unitsPerOne := by
      rw [Nat.mul_mul_mul_comm, ← Nat.mul_assoc]
    simp only [signed, Bool.false_eq_true, if_false, hunits, hrUnits, hdUnits, hproduct, Nat.add_mul,
      Int.natCast_add]
  rw [hm, hr, hd]
  show roundSigned false (signed false (m.units * r.units) + signed false (d.units * unitsPerOne)) unitsPerOne = _
  rw [hsum, roundSigned_natCast _ unitsPerOne_pos]
  exact round_congr_ratio false unitsPerOne_pos Nat.one_pos (by rw [Nat.mul_one])

/-- An infinity stays what it is: the radix is no zero, and the digit is finite. -/
theorem infinity_mulAdd {negative : Bool} {radix digit : Nat} (hpos : 0 < radix) (hradix : radix ≤ Nat.pow 2 53)
    (hdigit : digit ≤ Nat.pow 2 53) :
    (infinity negative).mulAdd (ofNat radix) (ofNat digit) = infinity negative := by
  obtain ⟨r, hr, hrUnits⟩ := exists_ofNat_eq_finite hradix
  obtain ⟨d, hd, -⟩ := exists_ofNat_eq_finite hdigit
  have hne : r.units ≠ 0 := hrUnits ▸ Nat.ne_of_gt (Nat.mul_pos hpos unitsPerOne_pos)
  have hproduct : infinity negative * finite false r = infinity (negative ^^ false) := if_neg hne
  rw [hr, hd]
  show infinity negative * finite false r + finite false d = _
  rw [hproduct, Bool.xor_false]
  rfl

end Double

end SlotScript
