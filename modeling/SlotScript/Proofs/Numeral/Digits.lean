import SlotScript.Numeral.Read
import SlotScript.Proofs.Double.Integer
import Mathlib.Data.Nat.Digits.Defs
import Mathlib.Tactic.Ring

/-!
# Digits with a rounding after each

An integer with a radix mark is read digit by digit, and every digit rounds. As long as the number so far has at
most 53 bits nothing is lost. The digit with which it gets more rounds it once, to the nearest double; from then
on no digit is seen any more, as it is less than half a step (`mulAdd_of_le`). So what is read is the integer with
zeros in place of the digits after that one, rounded once (`ofDigits_eq_ofNat`), and this is the integer itself,
rounded once, unless those digits decide a tie (`ofDigits_eq_ofNat_iff`).
-/

namespace SlotScript

namespace Numeral

/-- The number that digits make after `n`, up to the one with which it has more than 53 bits, and the digits
after that one. -/
def seen (radix n : Nat) : List Nat → Nat × List Nat
  | [] => (n, [])
  | digit :: digits =>
    if Nat.pow 2 53 ≤ n then (n, digit :: digits) else seen radix (n * radix + digit) digits

/-- The digits that are not seen would take the number up: it lies halfway between two finite doubles and goes
down to the lower one as that is even, but the digits after it are not all zero. -/
def LosesTie (radix : Nat) (digits : List Nat) : Prop :=
  (∃ digit ∈ (seen radix 0 digits).2, digit ≠ 0) ∧ IsLowerTie (seen radix 0 digits).1 ∧
    Double.ofNat ((seen radix 0 digits).1 * Nat.pow radix (seen radix 0 digits).2.length) ≠ .infinity false

instance (radix : Nat) (digits : List Nat) : Decidable (LosesTie radix digits) :=
  inferInstanceAs (Decidable (_ ∧ _))

/-! ### The integer in two parts -/

theorem le_fst_seen {radix n : Nat} {digits : List Nat} (h : (seen radix n digits).2 ≠ []) :
    Nat.pow 2 53 ≤ (seen radix n digits).1 := by
  induction digits generalizing n with
  | nil => exact absurd rfl h
  | cons digit digits ih =>
    unfold seen at h ⊢
    split
    · assumption
    · next hsmall =>
      rw [if_neg hsmall] at h
      exact ih h

theorem snd_seen_subset (radix n : Nat) (digits : List Nat) : (seen radix n digits).2 ⊆ digits := by
  induction digits generalizing n with
  | nil => exact List.Subset.refl _
  | cons digit digits ih =>
    unfold seen
    split
    · exact List.Subset.refl _
    · exact List.subset_cons_of_subset digit (ih _)

/-- The two parts make up the whole. -/
theorem seen_value (radix n : Nat) (digits : List Nat) :
    (seen radix n digits).1 * radix ^ (seen radix n digits).2.length +
        Nat.ofDigits radix (seen radix n digits).2.reverse =
      n * radix ^ digits.length + Nat.ofDigits radix digits.reverse := by
  induction digits generalizing n with
  | nil => rfl
  | cons digit digits ih =>
    unfold seen
    split
    · rfl
    · rw [ih, Nat.ofDigits_reverse_cons, List.length_cons, Nat.pow_succ']
      ring

/-! ### Digit by digit -/

section

variable {k : Nat} {n digit : Nat} {digits : List Nat}

/-- Up to the digit with which the number has more than 53 bits nothing is lost before it. -/
theorem mulAdd_of_lt (hk : k ≤ 53) (hdigit : digit < Nat.pow 2 k) (hn : n < Nat.pow 2 53) :
    (Double.ofNat n).mulAdd (.ofNat (Nat.pow 2 k)) (.ofNat digit) = .ofNat (n * Nat.pow 2 k + digit) := by
  have hradix : Nat.pow 2 k ≤ Nat.pow 2 53 := Nat.pow_le_pow_right (by decide) hk
  obtain ⟨m, hm, -⟩ := Double.exists_ofNat_eq_finite (Nat.le_of_lt hn)
  have hfinite : Double.ofNat n ≠ .infinity false := hm ▸ Double.noConfusion
  rw [Double.ofNat_mulAdd hradix (Nat.le_trans (Nat.le_of_lt hdigit) hradix) hfinite,
    nearestUnits_of_le (Nat.le_of_lt hn)]

/-- After that digit the others count as zeros: no rounded number is a tie. -/
theorem mulAdd_of_le (hk : k ≤ 53) (hdigit : digit < Nat.pow 2 k) (hn : Nat.pow 2 53 ≤ n) :
    (Double.ofNat n).mulAdd (.ofNat (Nat.pow 2 k)) (.ofNat digit) = .ofNat (n * Nat.pow 2 k) := by
  have hradix : Nat.pow 2 k ≤ Nat.pow 2 53 := Nat.pow_le_pow_right (by decide) hk
  have hdigit' : digit ≤ Nat.pow 2 53 := Nat.le_trans (Nat.le_of_lt hdigit) hradix
  rcases Double.ofNat_cases n with ⟨m, hm, -⟩ | ⟨hinfinite, hlimit⟩
  · rw [Double.ofNat_mulAdd hradix hdigit' (hm ▸ Double.noConfusion)]
    have hlarge : Nat.pow 2 53 ≤ nearestUnits n 1 :=
      two_pow_le_nearestUnits (by decide) (by rwa [Nat.div_one])
    have hgrid : nearestUnits n 1 % gridStep (nearestUnits n 1) = 0 := nearestUnits_mod_eq_zero n 1
    have htie : ¬ (digit ≠ 0 ∧ IsLowerTie (nearestUnits n 1)) := by
      rintro ⟨-, hhalf, -⟩
      have := gridStep_pos (nearestUnits n 1)
      omega
    apply Double.ofNat_congr
    rw [nearestUnits_mul_add hlarge hdigit, if_neg htie, Nat.add_zero, nearestUnits_one hgrid,
      nearestUnits_mul_two_pow]
  · have hpos : 0 < Nat.pow 2 k := Nat.two_pow_pos k
    rw [hinfinite, Double.infinity_mulAdd hpos hradix hdigit']
    rcases Double.ofNat_cases (n * Nat.pow 2 k) with ⟨m, -, hunits⟩ | ⟨hinfinite', -⟩
    · have hfinite := m.representable.2
      rw [hunits, nearestUnits_mul_two_pow, Nat.mul_right_comm] at hfinite
      have := Nat.le_mul_of_pos_right (nearestUnits n 1 * unitsPerOne) (Nat.two_pow_pos k)
      exact absurd (Nat.lt_of_le_of_lt (Nat.le_trans hlimit this) hfinite) (Nat.lt_irrefl _)
    · exact hinfinite'.symm

/-- Digits that are not seen. -/
theorem foldl_mulAdd_of_le (hk : k ≤ 53) (hdigits : ∀ digit ∈ digits, digit < Nat.pow 2 k)
    (hn : Nat.pow 2 53 ≤ n) :
    digits.foldl (fun x digit => x.mulAdd (.ofNat (Nat.pow 2 k)) (.ofNat digit)) (Double.ofNat n) =
      .ofNat (n * Nat.pow (Nat.pow 2 k) digits.length) := by
  induction digits generalizing n with
  | nil => rw [List.foldl_nil, List.length_nil, Nat.pow_eq, Nat.pow_zero, Nat.mul_one]
  | cons digit digits ih =>
    obtain ⟨hdigit, hdigits⟩ := List.forall_mem_cons.mp hdigits
    have hgrown : Nat.pow 2 53 ≤ n * Nat.pow 2 k :=
      Nat.le_trans hn (Nat.le_mul_of_pos_right n (Nat.two_pow_pos k))
    rw [List.foldl_cons, mulAdd_of_le hk hdigit hn, ih hdigits hgrown, Nat.mul_assoc, List.length_cons]
    simp only [Nat.pow_eq, Nat.pow_succ']

/-- **What digits are read as after a number**: what is seen of them, with zeros in place of the others, rounded
once. -/
theorem foldl_mulAdd (hk : k ≤ 53) (hdigits : ∀ digit ∈ digits, digit < Nat.pow 2 k) :
    digits.foldl (fun x digit => x.mulAdd (.ofNat (Nat.pow 2 k)) (.ofNat digit)) (Double.ofNat n) =
      .ofNat ((seen (Nat.pow 2 k) n digits).1 *
        Nat.pow (Nat.pow 2 k) (seen (Nat.pow 2 k) n digits).2.length) := by
  induction digits generalizing n with
  | nil => rw [List.foldl_nil, seen, List.length_nil, Nat.pow_eq, Nat.pow_zero, Nat.mul_one]
  | cons digit digits ih =>
    unfold seen
    split
    · next hn => exact foldl_mulAdd_of_le hk hdigits hn
    · next hn =>
      obtain ⟨hdigit, hdigits⟩ := List.forall_mem_cons.mp hdigits
      rw [List.foldl_cons, mulAdd_of_lt hk hdigit (Nat.not_le.mp hn), ih hdigits]

/-! ### The whole of the digits -/

/-- What an integer is read as: what is seen of it, rounded once. -/
theorem ofDigits_eq_ofNat (hk : k ≤ 53) (hdigits : ∀ digit ∈ digits, digit < Nat.pow 2 k) :
    ofDigits (Nat.pow 2 k) digits = .ofNat ((seen (Nat.pow 2 k) 0 digits).1 *
      Nat.pow (Nat.pow 2 k) (seen (Nat.pow 2 k) 0 digits).2.length) := by
  have hzero : Double.zero = .ofNat 0 := by rw [Double.ofNat, Nat.zero_mul, Double.zero]
  rw [ofDigits, hzero, foldl_mulAdd hk hdigits]

theorem ofDigits_reverse_eq_zero_iff {radix : Nat} (hradix : radix ≠ 0) :
    Nat.ofDigits radix digits.reverse = 0 ↔ ∀ digit ∈ digits, digit = 0 := by
  constructor
  · intro h digit hdigit
    exact Nat.digits_zero_of_eq_zero hradix h digit (List.mem_reverse.mpr hdigit)
  · intro h
    rw [List.eq_replicate_of_mem h, List.reverse_replicate, Nat.ofDigits_replicate_zero]

/-- **When an integer is read as itself**, rounded once: unless the digits that are not seen decide a tie. -/
theorem ofDigits_eq_ofNat_iff (hpos : 0 < k) (hk : k ≤ 53) (hdigits : ∀ digit ∈ digits, digit < Nat.pow 2 k) :
    ofDigits (Nat.pow 2 k) digits = .ofNat (Nat.ofDigits (Nat.pow 2 k) digits.reverse) ↔
      ¬ LosesTie (Nat.pow 2 k) digits := by
  have hvalue := seen_value (Nat.pow 2 k) 0 digits
  have hlarge := @le_fst_seen (Nat.pow 2 k) 0 digits
  have hsubset := snd_seen_subset (Nat.pow 2 k) 0 digits
  rw [Nat.zero_mul, Nat.zero_add] at hvalue
  rw [ofDigits_eq_ofNat hk hdigits, ← hvalue, LosesTie]
  generalize seen (Nat.pow 2 k) 0 digits = parts at hlarge hsubset ⊢
  obtain ⟨n, unseen⟩ := parts
  by_cases hnil : unseen = []
  · subst hnil
    simp
  · have hradix : 1 < Nat.pow 2 k := Nat.one_lt_two_pow (Nat.ne_of_gt hpos)
    have hlt : Nat.ofDigits (Nat.pow 2 k) unseen.reverse < Nat.pow 2 (k * unseen.length) := by
      have hlt := Nat.ofDigits_lt_base_pow_length hradix fun digit hdigit =>
        hdigits digit (hsubset (List.mem_reverse.mp hdigit))
      rwa [List.length_reverse, Nat.pow_eq, ← Nat.pow_mul] at hlt
    have hpow : Nat.pow (Nat.pow 2 k) unseen.length = Nat.pow 2 (k * unseen.length) := (Nat.pow_mul 2 k _).symm
    have hzeros : (∃ digit ∈ unseen, digit ≠ 0) ↔ Nat.ofDigits (Nat.pow 2 k) unseen.reverse ≠ 0 := by
      rw [Ne, ofDigits_reverse_eq_zero_iff (Nat.ne_of_gt (Nat.zero_lt_of_lt hradix))]
      simp
    have hround := Double.ofNat_mul_add_eq_iff (hlarge hnil) hlt
    rw [hzeros, ← Nat.pow_eq, hpow, eq_comm]
    exact hround

end

end Numeral

end SlotScript
