import SlotScript.Double.Arithmetic
import SlotScript.Proofs.Double.Rounding

/-!
# The two zeros in arithmetic

Numbers that are the same are equal or the two zeros (`same_cases`). If an operand is a zero of the other sign,
a sum, a difference, a product and a remainder may be so too, but they change in no other way (`same_add`,
`same_mul`, …), and neither does a quotient with its dividend. The sign of a zero divisor decides between the
infinities (`same_div_iff`).
-/

namespace SlotScript

namespace Double

variable {x x' y y' : Double}

/-! ### Numbers that are the same -/

/-- The zero with a sign. -/
def signedZero (negative : Bool) : Double := finite negative ⟨0, Nat.zero_mod _, unitLimit_pos⟩

theorem signed_eq_signed_iff {a b : Bool} {m n : Nat} :
    signed a m = signed b n ↔ m = n ∧ (a = b ∨ m = 0) := by
  cases a <;> cases b <;>
    simp only [signed, if_true, Bool.false_eq_true, Bool.true_eq_false, if_false, true_or, false_or, and_true] <;>
    omega

theorem isZero_signedZero (negative : Bool) : (signedZero negative).isZero := isZero_finite.mpr rfl

theorem exists_signedZero (h : x.isZero) : ∃ negative, x = signedZero negative := by
  cases x with
  | nan => cases isZero_iff.mp h
  | infinity negative =>
    have hzero : signed negative unitLimit = signed negative 0 := by
      rw [Option.some.inj (isZero_iff.mp h)]
      cases negative <;> rfl
    exact absurd (signed_eq_signed_iff.mp hzero).1 (Nat.ne_of_gt unitLimit_pos)
  | finite negative m =>
    obtain ⟨units, _⟩ := m
    obtain rfl : units = 0 := isZero_finite.mp h
    exact ⟨negative, rfl⟩

theorem same_infinity_iff {a b : Bool} : (infinity a).same (infinity b) ↔ a = b := by
  rw [same_iff, position, position, Option.some_inj, signed_eq_signed_iff,
    or_iff_left (Nat.ne_of_gt unitLimit_pos), and_iff_right rfl]

theorem same_of_isZero (hx : x.isZero) (hy : y.isZero) : x.same y :=
  same_iff.mpr ((isZero_iff.mp hx).trans (isZero_iff.mp hy).symm)

/-- Numbers that are the same are equal, or both are zeros. -/
theorem same_cases (h : x.same y) :
    x = y ∨ ∃ negative negative', x = signedZero negative ∧ y = signedZero negative' := by
  have hposition := same_iff.mp h
  by_cases hzero : x.isZero
  · obtain ⟨negative, rfl⟩ := exists_signedZero hzero
    obtain ⟨negative', rfl⟩ := exists_signedZero (isZero_iff.mpr (hposition.symm.trans (isZero_iff.mp hzero)))
    exact .inr ⟨negative, negative', rfl, rfl⟩
  refine .inl ?_
  cases x with
  | nan =>
    cases y with
    | nan => rfl
    | _ => cases hposition
  | infinity a =>
    cases y with
    | nan => cases hposition
    | infinity b =>
      obtain ⟨-, hsign⟩ := signed_eq_signed_iff.mp (Option.some.inj hposition)
      rw [hsign.resolve_right (Nat.ne_of_gt unitLimit_pos)]
    | finite b n =>
      obtain ⟨hunits, -⟩ := signed_eq_signed_iff.mp (Option.some.inj hposition)
      exact absurd n.representable.2 (hunits ▸ Nat.lt_irrefl _)
  | finite a m =>
    cases y with
    | nan => cases hposition
    | infinity b =>
      obtain ⟨hunits, -⟩ := signed_eq_signed_iff.mp (Option.some.inj hposition)
      exact absurd m.representable.2 (hunits ▸ Nat.lt_irrefl _)
    | finite b n =>
      obtain ⟨hunits, hsign⟩ := signed_eq_signed_iff.mp (Option.some.inj hposition)
      rw [hsign.resolve_right (mt isZero_finite.mpr hzero), Magnitude.ext hunits]

/-! ### Rounding -/

theorem isZero_round (negative : Bool) (den : Nat) : (round negative 0 den).isZero := by
  have hunits : nearestUnits 0 den = 0 := by
    simp [nearestUnits, roundHalfEven]
  unfold round
  split
  · exact isZero_finite.mpr hunits
  · next hlimit => exact absurd (Nat.lt_of_le_of_lt (Nat.le_of_eq hunits) unitLimit_pos) hlimit

theorem same_round_zero (negative negative' : Bool) (den : Nat) :
    (round negative 0 den).same (round negative' 0 den) :=
  same_of_isZero (isZero_round negative den) (isZero_round negative' den)

/-- The sign that is asked for matters to a zero only. -/
theorem same_roundSigned (zeroSign zeroSign' : Bool) (num : Int) (den : Nat) :
    (roundSigned zeroSign num den).same (roundSigned zeroSign' num den) := by
  unfold roundSigned
  split
  · exact same_round_zero _ _ _
  · exact same_refl _

/-! ### Operations on finite numbers

Their equations are rewritten with: to see them by unification, the powers of two would be evaluated. -/

theorem finite_add_finite (a b : Bool) (m n : Magnitude) :
    finite a m + finite b n = roundSigned (a && b) (signed a m.units + signed b n.units) 1 := by
  show add _ _ = _
  rw [add]

theorem finite_mul_finite (a b : Bool) (m n : Magnitude) :
    finite a m * finite b n = round (a ^^ b) (m.units * n.units) unitsPerOne := by
  show mul _ _ = _
  rw [mul]

theorem finite_mul_infinity (a b : Bool) (m : Magnitude) :
    finite a m * infinity b = if m.units = 0 then nan else infinity (b ^^ a) := by
  show mul _ _ = _
  rw [mul]

theorem finite_div_infinity (a b : Bool) (m : Magnitude) : finite a m / infinity b = round (a ^^ b) 0 1 := by
  show div _ _ = _
  rw [div]

theorem finite_div_finite (a b : Bool) (m n : Magnitude) :
    finite a m / finite b n = if n.units = 0 then if m.units = 0 then nan else infinity (a ^^ b)
      else round (a ^^ b) (m.units * unitsPerOne) n.units := by
  show div _ _ = _
  rw [div]

theorem finite_mod_finite (a b : Bool) (m n : Magnitude) :
    finite a m % finite b n = if n.units = 0 then nan else round a (m.units % n.units) 1 := by
  show mod _ _ = _
  rw [mod]

theorem add_comm (x y : Double) : x + y = y + x := by
  cases x with
  | nan => cases y <;> rfl
  | infinity a =>
    cases y with
    | infinity b =>
      show (if a = b then infinity a else nan) = if b = a then infinity b else nan
      by_cases h : a = b
      · rw [if_pos h, if_pos h.symm, h]
      · rw [if_neg h, if_neg (Ne.symm h)]
    | _ => rfl
  | finite a m =>
    cases y with
    | finite b n => rw [finite_add_finite, finite_add_finite, Bool.and_comm, Int.add_comm]
    | _ => rfl

theorem mul_comm (x y : Double) : x * y = y * x := by
  cases x with
  | nan => cases y <;> rfl
  | infinity a =>
    cases y with
    | infinity b => exact congrArg infinity (Bool.xor_comm a b)
    | _ => rfl
  | finite a m =>
    cases y with
    | finite b n => rw [finite_mul_finite, finite_mul_finite, Bool.xor_comm, Nat.mul_comm]
    | _ => rfl

/-! ### Operations on zeros -/

theorem signed_zero (negative : Bool) : signed negative 0 = 0 := by cases negative <;> rfl

theorem same_signedZero_add (a b : Bool) (y : Double) : (signedZero a + y).same (signedZero b + y) := by
  cases y with
  | finite c n =>
    rw [signedZero, signedZero, finite_add_finite, finite_add_finite, signed_zero, signed_zero]
    exact same_roundSigned _ _ _ _
  | _ => exact same_refl _

theorem same_signedZero_mul (a b : Bool) (y : Double) : (signedZero a * y).same (signedZero b * y) := by
  cases y with
  | nan => exact same_refl _
  | infinity c =>
    rw [signedZero, signedZero, finite_mul_infinity, finite_mul_infinity, if_pos rfl, if_pos rfl]
    exact same_refl _
  | finite c n =>
    rw [signedZero, signedZero, finite_mul_finite, finite_mul_finite, Nat.zero_mul]
    exact same_round_zero _ _ _

theorem same_signedZero_div (a b : Bool) (y : Double) : (signedZero a / y).same (signedZero b / y) := by
  cases y with
  | nan => exact same_refl _
  | infinity c =>
    rw [signedZero, signedZero, finite_div_infinity, finite_div_infinity]
    exact same_round_zero _ _ _
  | finite c n =>
    rw [signedZero, signedZero, finite_div_finite, finite_div_finite, if_pos rfl, if_pos rfl, Nat.zero_mul]
    split
    · exact same_refl _
    · exact same_round_zero _ _ _

theorem same_signedZero_mod (a b : Bool) (y : Double) : (signedZero a % y).same (signedZero b % y) := by
  cases y with
  | nan => exact same_refl _
  | infinity c => exact same_of_isZero (isZero_signedZero a) (isZero_signedZero b)
  | finite c n =>
    rw [signedZero, signedZero, finite_mod_finite, finite_mod_finite, Nat.zero_mod]
    split
    · exact same_refl _
    · exact same_round_zero _ _ _

/-- There is no remainder of a division by zero. -/
theorem mod_signedZero (x : Double) (negative : Bool) : x % signedZero negative = nan := by
  cases x with
  | finite a m => rw [signedZero, finite_mod_finite, if_pos rfl]
  | _ => rfl

theorem div_signedZero_of_isZero (h : x = nan ∨ x.isZero) (negative : Bool) : x / signedZero negative = nan := by
  rcases h with rfl | h
  · rfl
  · obtain ⟨a, rfl⟩ := exists_signedZero h
    rw [signedZero, signedZero, finite_div_finite, if_pos rfl, if_pos rfl]

/-- A zero divisor gives an infinity its sign. -/
theorem exists_div_signedZero (hx : x ≠ nan) (hzero : ¬ x.isZero) :
    ∃ a, ∀ negative, x / signedZero negative = infinity (a ^^ negative) := by
  cases x with
  | nan => exact absurd rfl hx
  | infinity a => exact ⟨a, fun _ => rfl⟩
  | finite a m =>
    refine ⟨a, fun negative => ?_⟩
    rw [signedZero, finite_div_finite, if_pos rfl, if_neg (mt isZero_finite.mpr hzero)]

/-! ### Operations on numbers that are the same -/

/-- What takes the zeros to numbers that are the same does so with all numbers that are. -/
theorem same_apply {f : Double → Double} (hzeros : ∀ a b, (f (signedZero a)).same (f (signedZero b)))
    (h : x.same x') : (f x).same (f x') := by
  rcases same_cases h with rfl | ⟨a, b, rfl, rfl⟩
  · exact same_refl _
  · exact hzeros a b

theorem same_neg (h : x.same x') : (-x).same (-x') :=
  same_apply (fun a b => same_of_isZero (isZero_signedZero (!a)) (isZero_signedZero (!b))) h

theorem same_add (hx : x.same x') (hy : y.same y') : (x + y).same (x' + y') := by
  have hright : (x' + y).same (x' + y') := by
    rw [add_comm x', add_comm x']
    exact same_apply (f := (· + x')) (fun a b => same_signedZero_add a b x') hy
  exact same_trans (same_apply (f := (· + y)) (fun a b => same_signedZero_add a b y) hx) hright

theorem same_sub (hx : x.same x') (hy : y.same y') : (x - y).same (x' - y') := same_add hx (same_neg hy)

theorem same_mul (hx : x.same x') (hy : y.same y') : (x * y).same (x' * y') := by
  have hright : (x' * y).same (x' * y') := by
    rw [mul_comm x', mul_comm x']
    exact same_apply (f := (· * x')) (fun a b => same_signedZero_mul a b x') hy
  exact same_trans (same_apply (f := (· * y)) (fun a b => same_signedZero_mul a b y) hx) hright

theorem same_mod (hx : x.same x') (hy : y.same y') : (x % y).same (x' % y') := by
  have hright : (x' % y).same (x' % y') := by
    refine same_apply (f := (x' % ·)) (fun a b => ?_) hy
    rw [mod_signedZero, mod_signedZero]
    exact same_refl _
  exact same_trans (same_apply (f := (· % y)) (fun a b => same_signedZero_mod a b y) hx) hright

theorem same_div_left (h : x.same x') (y : Double) : (x / y).same (x' / y) :=
  same_apply (f := (· / y)) (fun a b => same_signedZero_div a b y) h

theorem same_div (hx : x.same x') (hy : y.same y') (h : ¬ y.isZero) : (x / y).same (x' / y') := by
  rcases same_cases hy with rfl | ⟨a, b, rfl, rfl⟩
  · exact same_div_left hx y
  · exact absurd (isZero_signedZero a) h

/-- Where the divisor is a zero, quotients are the same if the zeros are equal or there is no quotient. -/
theorem same_div_iff (hx : x.same x') (hy : y.same y') (hzero : y.isZero) :
    (x / y).same (x' / y') ↔ y = y' ∨ x = nan ∨ x.isZero := by
  have hleft : (x / y).same (x' / y') ↔ (x / y).same (x / y') :=
    ⟨fun h => same_trans h (same_div_left (same_comm x x' ▸ hx) y'), fun h => same_trans h (same_div_left hx y')⟩
  obtain ⟨b, rfl⟩ := exists_signedZero hzero
  obtain ⟨b', rfl⟩ := exists_signedZero (isZero_iff.mpr ((same_iff.mp hy).symm.trans (isZero_iff.mp hzero)))
  rw [hleft]
  by_cases hnone : x = nan ∨ x.isZero
  · rw [div_signedZero_of_isZero hnone, div_signedZero_of_isZero hnone]
    exact iff_of_true (same_refl nan) (.inr hnone)
  · obtain ⟨a, ha⟩ := exists_div_signedZero (not_or.mp hnone).1 (not_or.mp hnone).2
    have hzeros : signedZero b = signedZero b' ↔ b = b' := by simp [signedZero]
    rw [ha, ha, same_infinity_iff, or_iff_left hnone, hzeros, Bool.xor_right_inj]

end Double

end SlotScript
