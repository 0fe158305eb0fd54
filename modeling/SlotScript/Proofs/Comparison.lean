import SlotScript.Proofs.Double.Rounding
import SlotScript.Value.Equality
import SlotScript.Value.Order

/-!
# Equality and order

Strict equality compares what is left of a value when a number is taken for its place among the numbers
(`Value.strictEq_iff`), so it is an equivalence. Loose equality looks at the kinds of both operands first, and
the order at what each of them ranks as; on truth values, numbers and texts both come down to the same, texts
by their characters and everything else by number (`Value.looseEq_eq_numEq`, `Value.compare?_eq_compare?`).
They part only where not-a-number is compared with itself (`Value.equality_agrees`).
-/

namespace SlotScript

namespace Double

variable {x y : Double}

theorem numEq_comm (x y : Double) : x.numEq y = y.numEq x := by
  rw [Bool.eq_iff_iff, numEq_iff, numEq_iff]
  simp only [and_comm]

/-- The two equalities of numbers differ only on not-a-number. -/
theorem same_eq_numEq (h : ¬ (x = nan ∧ y = nan)) : x.same y = x.numEq y := by
  rw [Bool.eq_iff_iff, same_iff, numEq_iff]
  constructor
  · intro hsame
    have hx : x ≠ nan := by
      rintro rfl
      exact h ⟨rfl, position_eq_none_iff.mp hsame.symm⟩
    obtain ⟨p, hp⟩ := exists_position_eq_some hx
    exact ⟨p, hp, hsame.symm.trans hp⟩
  · rintro ⟨p, hx, hy⟩
    exact hx.trans hy.symm

theorem ofNat_ne_nan (n : Nat) : ofNat n ≠ nan := round_ne_nan false _ 1

end Double

namespace Value

variable {a b c : Value}

/-! ### Strict equality -/

/-- What strict equality sees of a value: of a number its place, of any other value everything. -/
def identity : Value → Sum (Option Int) Value
  | number x => .inl x.position
  | v => .inr v

theorem strictEq_iff : a.strictEq b ↔ a.identity = b.identity := by
  cases a with
  | number x =>
    cases b with
    | number y => simp [strictEq, identity, Double.same_iff]
    | _ => simp [strictEq, identity]
  | _ => cases b <;> simp [strictEq, identity]

theorem strictEq_refl (a : Value) : a.strictEq a := strictEq_iff.mpr rfl

theorem strictEq_comm (a b : Value) : a.strictEq b = b.strictEq a := by
  rw [Bool.eq_iff_iff, strictEq_iff, strictEq_iff, eq_comm]

theorem strictEq_trans (hab : a.strictEq b) (hbc : b.strictEq c) : a.strictEq c :=
  strictEq_iff.mpr ((strictEq_iff.mp hab).trans (strictEq_iff.mp hbc))

/-! ### Loose equality -/

theorem looseEq_of_kind_eq (h : a.kind = b.kind) : a.looseEq b = a.strictEq b := if_pos h

theorem looseEq_comm (a b : Value) : a.looseEq b = b.looseEq a := by
  by_cases h : a.kind = b.kind
  · rw [looseEq_of_kind_eq h, looseEq_of_kind_eq h.symm, strictEq_comm]
  · rw [looseEq, looseEq, if_neg h, if_neg (Ne.symm h), Bool.or_comm, Bool.and_comm]
    cases a.withoutBoolean <;> cases b.withoutBoolean <;> simp [Double.same_comm]

/-! ### Where equality and order meet -/

/-- The values are truth values, numbers or texts. -/
inductive IsScalar : Value → Prop where
  | boolean (b : Bool) : IsScalar (boolean b)
  | number (x : Double) : IsScalar (number x)
  | text (s : String) : IsScalar (text s)

theorem Rank.compare?_eq_compare? {r r' : Rank} (h : ∀ s t, ¬ (r = .text s ∧ r' = .text t)) :
    r.compare? r' = r.toNumber.compare? r'.toNumber := by
  unfold Rank.compare?
  split
  · next s t => exact absurd ⟨rfl, rfl⟩ (h s t)
  · rfl

theorem toNumber_of_rank? {r : Rank} (h : a.rank? = some r) : r.toNumber = a.toNumber := by
  cases a <;> cases h <;> rfl

theorem isText_of_rank? {s : String} (h : a.rank? = some (.text s)) : a.isText := by
  cases a <;> cases h
  rfl

/-- Except for two texts, values that have an order are compared by number. -/
theorem compare?_eq_compare? (ha : a.rank?.isSome) (hb : b.rank?.isSome) (h : ¬ (a.isText ∧ b.isText)) :
    a.compare? b = a.toNumber.compare? b.toNumber := by
  obtain ⟨r, hr⟩ := Option.isSome_iff_exists.mp ha
  obtain ⟨r', hr'⟩ := Option.isSome_iff_exists.mp hb
  have htexts : ∀ s t, ¬ (r = .text s ∧ r' = .text t) := by
    rintro s t ⟨rfl, rfl⟩
    exact h ⟨isText_of_rank? hr, isText_of_rank? hr'⟩
  rw [← toNumber_of_rank? hr, ← toNumber_of_rank? hr', ← Rank.compare?_eq_compare? htexts, compare?, hr, hr']
  rfl

theorem IsScalar.isSome_rank? (h : a.IsScalar) : a.rank?.isSome := by
  cases h <;> rfl

/-- Truth values are equal when their numbers are. -/
theorem numEq_boolean (p q : Bool) : (boolean p).toNumber.numEq (boolean q).toNumber = decide (p = q) := by
  rw [Bool.eq_iff_iff, decide_eq_true_iff]
  show (Double.ofNat p.toNat).numEq (.ofNat q.toNat) ↔ p = q
  have hp : p.toNat ≤ Nat.pow 2 53 := Nat.le_trans p.toNat_le (by decide)
  have hq : q.toNat ≤ Nat.pow 2 53 := Nat.le_trans q.toNat_le (by decide)
  rw [Double.numEq_ofNat_iff hq, Double.toNat?_eq_some_iff hq, Double.position_ofNat hp, Option.some_inj,
    Int.natCast_inj, Nat.mul_left_inj (Nat.ne_of_gt unitsPerOne_pos)]
  cases p <;> cases q <;> decide

/-- Except for two texts, and for not-a-number twice, scalars are loosely equal when their numbers are. -/
theorem looseEq_eq_numEq (ha : a.IsScalar) (hb : b.IsScalar) (h : ¬ (a.isText ∧ b.isText))
    (hnan : ¬ (a = number .nan ∧ b = number .nan)) : a.looseEq b = a.toNumber.numEq b.toNumber := by
  have hboolean (p : Bool) : (boolean p).toNumber ≠ .nan := Double.ofNat_ne_nan p.toNat
  cases ha with
  | boolean p =>
    cases hb with
    | boolean q =>
      rw [numEq_boolean]
      simp [looseEq, kind, strictEq]
    | number y =>
      rw [← Double.same_eq_numEq fun hboth => hboolean p hboth.1]
      simp [looseEq, kind, isNullish, withoutBoolean, toNumber]
    | text t => simp [looseEq, kind, isNullish, withoutBoolean, toNumber]
  | number x =>
    cases hb with
    | boolean q =>
      rw [← Double.same_eq_numEq fun hboth => hboolean q hboth.2]
      simp [looseEq, kind, isNullish, withoutBoolean, toNumber]
    | number y =>
      have hne : ¬ (x = .nan ∧ y = .nan) := fun hboth => hnan ⟨congrArg number hboth.1, congrArg number hboth.2⟩
      simp [looseEq, kind, strictEq, toNumber, Double.same_eq_numEq hne]
    | text t => simp [looseEq, kind, isNullish, withoutBoolean, toNumber]
  | text s =>
    cases hb with
    | boolean q =>
      rw [Double.numEq_comm]
      simp [looseEq, kind, isNullish, withoutBoolean, toNumber]
    | number y =>
      rw [Double.numEq_comm]
      simp [looseEq, kind, isNullish, withoutBoolean, toNumber]
    | text t => exact absurd ⟨rfl, rfl⟩ h

theorem compare?_text_eq_iff (s t : String) : (text s).compare? (text t) = some .eq ↔ s = t := by
  show some (compare s t) = some .eq ↔ s = t
  rw [Option.some_inj, Std.compare_eq_iff_eq]

/-- **The equalities and the order agree.** Strict equality is an equivalence; loose equality is symmetric and is
strict equality on values of one kind; and of truth values, numbers and texts those are loosely equal that the
order takes for equal, but for not-a-number, which the order does not compare with itself. -/
theorem equality_agrees :
    (∀ a : Value, a.strictEq a) ∧
      (∀ a b : Value, a.strictEq b → b.strictEq a) ∧
      (∀ a b c : Value, a.strictEq b → b.strictEq c → a.strictEq c) ∧
      (∀ a b : Value, a.looseEq b = b.looseEq a) ∧
      (∀ a b : Value, a.kind = b.kind → a.looseEq b = a.strictEq b) ∧
      ∀ a b : Value, a.IsScalar → b.IsScalar → ¬ (a = number .nan ∧ b = number .nan) →
        (a.looseEq b ↔ a.compare? b = some .eq) := by
  refine ⟨strictEq_refl, fun a b h => strictEq_comm a b ▸ h, fun a b c => strictEq_trans, looseEq_comm,
    fun a b => looseEq_of_kind_eq, fun a b ha hb hnan => ?_⟩
  by_cases htexts : a.isText ∧ b.isText
  · cases ha with
    | text s =>
      cases hb with
      | text t =>
        rw [compare?_text_eq_iff]
        simp [looseEq, kind, strictEq]
      | _ => exact absurd htexts.2 Bool.false_ne_true
    | _ => exact absurd htexts.1 Bool.false_ne_true
  · rw [looseEq_eq_numEq ha hb htexts hnan,
      compare?_eq_compare? ha.isSome_rank? hb.isSome_rank? htexts, Double.numEq, decide_eq_true_iff]

/-- The two zeros; two texts that denote one; a text and a truth value that are equal by number. -/
theorem equality_agrees_one :
    let x := number .zero
    let y := number (-.zero)
    let a := text " 0x1 "
    let b := boolean true
    (x.strictEq y ∧ y.strictEq x ∧ x.strictEq x) ∧
      (a.kind = (text "1").kind ∧ a.looseEq (text "1") = a.strictEq (text "1")) ∧
      (a.IsScalar ∧ b.IsScalar ∧ a ≠ number .nan) ∧ (a.looseEq b ↔ a.compare? b = some .eq) := by
  intro x y a b
  obtain ⟨-, hsymm, htrans, -, hkind, hcompare⟩ := equality_agrees
  have hzeros : x.strictEq y := by decide +kernel
  have hne : a ≠ number .nan := by simp [a]
  exact ⟨⟨hzeros, hsymm x y hzeros, htrans x y x hzeros (hsymm x y hzeros)⟩, ⟨rfl, hkind a (text "1") rfl⟩,
    ⟨.text _, .boolean _, hne⟩, hcompare a b (.text _) (.boolean _) fun h => hne h.1⟩

end Value

end SlotScript
