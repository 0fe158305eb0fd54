import SlotScript.Body.Elements
import SlotScript.Proofs.Double.Zeros
import SlotScript.Proofs.Order
import SlotScript.Value.Operator

/-!
# Strict equality is a congruence

Strictly equal values are equal, or they are numbers that are the same (`Value.strictEq_cases`): the two zeros.
No conversion tells the zeros apart, and of the operators only a division by zero does. Everything else takes
strictly equal operands to strictly equal results (`Value.operators_congruent`).
-/

namespace SlotScript

namespace Double

variable {x x' y y' : Double}

theorem toText_signedZero (negative : Bool) : (signedZero negative).toText = "0" := by
  rw [signedZero, toText, if_pos rfl]

theorem toText_congr (h : x.same x') : x.toText = x'.toText := by
  rcases same_cases h with rfl | ⟨a, b, rfl, rfl⟩
  · rfl
  · rw [toText_signedZero, toText_signedZero]

theorem isZero_congr (h : x.same x') : x.isZero = x'.isZero := by
  rw [isZero, isZero, same_iff.mp h]

theorem same_congr (hx : x.same x') (hy : y.same y') : x.same y = x'.same y' := by
  rw [same, same, same_iff.mp hx, same_iff.mp hy]

theorem compare?_congr (hx : x.same x') (hy : y.same y') : x.compare? y = x'.compare? y' := by
  rw [compare?, compare?, same_iff.mp hx, same_iff.mp hy]

theorem numEq_congr (hx : x.same x') (hy : y.same y') : x.numEq y = x'.numEq y' := by
  rw [numEq, numEq, compare?_congr hx hy]

end Double

namespace Value

variable {a a' b b' : Value}

/-- Strictly equal values are equal, or numbers that are the same. -/
theorem strictEq_cases (h : a.strictEq a') :
    a = a' ∨ ∃ x x', a = number x ∧ a' = number x' ∧ x.same x' := by
  cases a with
  | number x =>
    cases a' with
    | number x' => exact .inr ⟨x, x', rfl, rfl, h⟩
    | _ => exact .inl (of_decide_eq_true h)
  | _ => exact .inl (of_decide_eq_true h)

/-! ### Conversions -/

theorem toNumber_congr (h : a.strictEq a') : a.toNumber.same a'.toNumber := by
  rcases strictEq_cases h with rfl | ⟨x, x', rfl, rfl, hsame⟩
  · exact Double.same_refl _
  · exact hsame

theorem toText_congr (h : a.strictEq a') : a.toText = a'.toText := by
  rcases strictEq_cases h with rfl | ⟨x, x', rfl, rfl, hsame⟩
  · rfl
  · exact Double.toText_congr hsame

theorem toBoolean_congr (h : a.strictEq a') : a.toBoolean = a'.toBoolean := by
  rcases strictEq_cases h with rfl | ⟨x, x', rfl, rfl, hsame⟩
  · rfl
  · have hnan : x = .nan ↔ x' = .nan := by
      rw [← Double.position_eq_none_iff, ← Double.position_eq_none_iff, Double.same_iff.mp hsame]
    simp only [toBoolean, Double.isZero_congr hsame, ne_eq, hnan]

theorem isText_congr (h : a.strictEq a') : a.isText = a'.isText := by
  rcases strictEq_cases h with rfl | ⟨x, x', rfl, rfl, -⟩ <;> rfl

/-! ### Comparisons -/

theorem strictEq_congr (ha : a.strictEq a') (hb : b.strictEq b') : a.strictEq b = a'.strictEq b' := by
  rw [Bool.eq_iff_iff, strictEq_iff, strictEq_iff, strictEq_iff.mp ha, strictEq_iff.mp hb]

theorem looseEq_congr_left (h : a.strictEq a') (b : Value) : a.looseEq b = a'.looseEq b := by
  rcases strictEq_cases h with rfl | ⟨x, x', rfl, rfl, hsame⟩
  · rfl
  · cases b with
    | number y => exact strictEq_congr h (strictEq_refl (number y))
    | boolean q =>
      simp [looseEq, kind, isNullish, withoutBoolean, Double.same_congr hsame (Double.same_refl _)]
    | text t =>
      simp [looseEq, kind, isNullish, withoutBoolean, Double.numEq_congr hsame (Double.same_refl _)]
    | _ => simp [looseEq, kind, isNullish, withoutBoolean]

theorem looseEq_congr (ha : a.strictEq a') (hb : b.strictEq b') : a.looseEq b = a'.looseEq b' := by
  rw [looseEq_congr_left ha b, looseEq_comm, looseEq_congr_left hb a', looseEq_comm]

theorem compare?_number (x : Double) (hb : b.rank?.isSome) :
    (number x).compare? b = x.compare? b.toNumber :=
  compare?_eq_compare? (a := number x) rfl hb fun htexts => Bool.false_ne_true htexts.1

theorem compare?_congr_left (h : a.strictEq a') (b : Value) : a.compare? b = a'.compare? b := by
  rcases strictEq_cases h with rfl | ⟨x, x', rfl, rfl, hsame⟩
  · rfl
  · by_cases hrank : b.rank? = none
    · rw [compare?_of_rank?_eq_none (.inr hrank), compare?_of_rank?_eq_none (.inr hrank)]
    · have hb : b.rank?.isSome := Option.ne_none_iff_isSome.mp hrank
      rw [compare?_number x hb, compare?_number x' hb]
      exact Double.compare?_congr hsame (Double.same_refl _)

theorem compare?_congr (ha : a.strictEq a') (hb : b.strictEq b') : a.compare? b = a'.compare? b' := by
  rw [compare?_congr_left ha b, compare?_swap b a', compare?_congr_left hb a', ← compare?_swap]

/-! ### Operators -/

theorem add_congr (ha : a.strictEq a') (hb : b.strictEq b') : (a.add b).strictEq (a'.add b') := by
  unfold add
  rw [isText_congr ha, isText_congr hb, toText_congr ha, toText_congr hb]
  split
  · exact strictEq_refl _
  · exact Double.same_add (toNumber_congr ha) (toNumber_congr hb)

end Value

variable {a a' b b' : Value}

theorem UnaryOp.apply_congr (op : UnaryOp) (h : a.strictEq a') : (op.apply a).strictEq (op.apply a') := by
  cases op with
  | not =>
    rw [UnaryOp.apply, UnaryOp.apply, Value.toBoolean_congr h]
    exact Value.strictEq_refl _
  | neg => exact Double.same_neg (Value.toNumber_congr h)

/-- Operators take strictly equal operands to strictly equal results, but for a division by zero. -/
theorem BinaryOp.apply_congr (op : BinaryOp) (ha : a.strictEq a') (hb : b.strictEq b')
    (hdiv : ¬ (op = .div ∧ b.toNumber.isZero)) : (op.apply a b).strictEq (op.apply a' b') := by
  have hx := Value.toNumber_congr ha
  have hy := Value.toNumber_congr hb
  cases op with
  | add => exact Value.add_congr ha hb
  | sub => exact Double.same_sub hx hy
  | mul => exact Double.same_mul hx hy
  | div => exact Double.same_div hx hy fun hzero => hdiv ⟨rfl, hzero⟩
  | mod => exact Double.same_mod hx hy
  | _ =>
    -- The other operators give a truth value that is the same for both pairs of operands.
    simp only [apply, Value.lt, Value.gt, Value.le, Value.ge, Value.strictEq_congr ha hb,
      Value.looseEq_congr ha hb, Value.compare?_congr ha hb]
    exact Value.strictEq_refl _

namespace Value

/-- **Strict equality is a congruence** for all operators and conversions, except for a division by a value that
converts to zero. There the results are strictly equal just if the zeros are equal, or the dividend converts to
not-a-number or to a zero. -/
theorem operators_congruent :
    (∀ (op : UnaryOp) (a a' : Value), a.strictEq a' → (op.apply a).strictEq (op.apply a')) ∧
      (∀ (op : BinaryOp) (a a' b b' : Value), a.strictEq a' → b.strictEq b' →
        ¬ (op = .div ∧ b.toNumber.isZero) → (op.apply a b).strictEq (op.apply a' b')) ∧
      (∀ a a' : Value, a.strictEq a' →
        a.toText = a'.toText ∧ a.toBoolean = a'.toBoolean ∧ arrayIndex? a.toText = arrayIndex? a'.toText) ∧
      ∀ a a' b b' : Value, a.strictEq a' → b.strictEq b' → b.toNumber.isZero →
        ((BinaryOp.div.apply a b).strictEq (BinaryOp.div.apply a' b') ↔
          b.toNumber = b'.toNumber ∨ a.toNumber = .nan ∨ a.toNumber.isZero) := by
  refine ⟨fun op a a' h => UnaryOp.apply_congr op h, fun op a a' b b' ha hb => BinaryOp.apply_congr op ha hb,
    fun a a' h => ⟨toText_congr h, toBoolean_congr h, by rw [toText_congr h]⟩, fun a a' b b' ha hb hzero => ?_⟩
  exact Double.same_div_iff (toNumber_congr ha) (toNumber_congr hb) hzero

/-- A division by a number, of the two zeros; and one by the two zeros. -/
theorem operators_congruent_zeros :
    let x := number .zero
    let y := number (-.zero)
    let one := boolean true
    (x.strictEq y ∧ one.strictEq one ∧ ¬ (BinaryOp.div = .div ∧ one.toNumber.isZero)) ∧
      (UnaryOp.neg.apply x).strictEq (UnaryOp.neg.apply y) ∧
      (BinaryOp.div.apply x one).strictEq (BinaryOp.div.apply y one) ∧
      x.toText = y.toText ∧
      (x.toNumber.isZero ∧ ¬ (BinaryOp.div.apply one x).strictEq (BinaryOp.div.apply one y)) := by
  intro x y one
  obtain ⟨hunary, hbinary, hconversions, hdiv⟩ := operators_congruent
  have hzeros : x.strictEq y := by decide +kernel
  have hone : ¬ (BinaryOp.div = .div ∧ one.toNumber.isZero) := by decide +kernel
  have hx : x.toNumber.isZero := by decide +kernel
  have hdiffer : ¬ (x.toNumber = y.toNumber ∨ one.toNumber = .nan ∨ one.toNumber.isZero) := by decide +kernel
  refine ⟨⟨hzeros, strictEq_refl one, hone⟩, hunary .neg x y hzeros,
    hbinary .div x y one one hzeros (strictEq_refl one) hone, (hconversions x y hzeros).1, hx, ?_⟩
  rwa [hdiv one one x y (strictEq_refl one) hzeros hx]

end Value

end SlotScript
