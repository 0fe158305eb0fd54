import SlotScript.Numeral.Print
import SlotScript.Proofs.Double.Shortest
import SlotScript.Proofs.Numeral.Grammar
import SlotScript.Value.Equality

/-!
# The text of a number denotes the number

A numeral that the printer writes is read as a decimal of the same value (`readsAs_ofDecimal`), in positional
and in exponent form alike: the zeros that fill up to the point are digits again, and no exponent reaches the
size at which digits are no longer taken in. What is read as a decimal has no blanks, is no name of infinity
and has no radix mark (`AreDecimalChars.trim`, `AreDecimalChars.number?`). As the shortest decimal of a
magnitude is read as the magnitude, the text of a number denotes the number, and that of either zero the zero
(`Double.ofText_toText`).
-/

namespace SlotScript

namespace Numeral

/-! ### Digits -/

theorem areDigits_toDigits (n : Nat) : AreDigits (Nat.toDigits 10 n) :=
  fun _ hc => Nat.isDigit_of_mem_toDigits (by decide) (by decide) hc

theorem areDigits_replicate_zero (n : Nat) : AreDigits (List.replicate n '0') := by
  intro c hc
  rw [List.eq_of_mem_replicate hc]
  rfl

theorem le_ofDigitChars (digits : List Char) (n : Nat) : n ≤ Nat.ofDigitChars 10 digits n := by
  induction digits generalizing n with
  | nil => exact Nat.le_refl n
  | cons c digits ih =>
    rw [Nat.ofDigitChars_cons]
    exact Nat.le_trans (by omega) (ih _)

/-- Below ten times the cutoff all digits are taken in: what is read before a digit is below the cutoff. -/
theorem foldl_exponentValue (digits : List Char) {e : Nat}
    (h : Nat.ofDigitChars 10 digits e < 10 * exponentCutoff) :
    digits.foldl (fun e c => if e < exponentCutoff then 10 * e + (c.toNat - '0'.toNat) else e) e =
      Nat.ofDigitChars 10 digits e := by
  induction digits generalizing e with
  | nil => rfl
  | cons c digits ih =>
    rw [Nat.ofDigitChars_cons] at h ⊢
    have hle := le_ofDigitChars digits (10 * e + (c.toNat - '0'.toNat))
    rw [List.foldl_cons, if_pos (by omega), ih h]

theorem exponentValue_toDigits {n : Nat} (h : n < 10 * exponentCutoff) :
    exponentValue (Nat.toDigits 10 n) = n := by
  have hvalue : Nat.ofDigitChars 10 (Nat.toDigits 10 n) 0 = n := Nat.ofDigitChars_ten_toDigits
  rw [exponentValue, foldl_exponentValue _ (by rwa [hvalue]), hvalue]

theorem signed_natAbs (n : Int) : Double.signed (n < 0) n.natAbs = n := by
  unfold Double.signed
  split
  · next hneg =>
    have := of_decide_eq_true hneg
    omega
  · next hpos =>
    have : ¬ n < 0 := fun hneg => hpos (decide_eq_true hneg)
    omega

/-- An exponent with its sign is read as it is. -/
theorem exponent?_toDigits {exponent : Int} (h : exponent.natAbs < 10 * exponentCutoff) :
    exponent? ('e' :: (if exponent < 0 then '-' else '+') :: Nat.toDigits 10 exponent.natAbs) =
      some exponent := by
  have hall : (Nat.toDigits 10 exponent.natAbs).all Char.isDigit :=
    List.all_eq_true.mpr (areDigits_toDigits _)
  have hsplit (digits : List Char) :
      splitSign ((if exponent < 0 then '-' else '+') :: digits) = (decide (exponent < 0), digits) := by
    split
    · next hneg => rw [splitSign, decide_eq_true hneg]
    · next hpos => rw [splitSign, decide_eq_false hpos]
  simp only [exponent?, hsplit, true_or, ne_eq, Nat.toDigits_ne_nil, not_false_eq_true, hall, and_self,
    if_true, exponentValue_toDigits h, signed_natAbs]

/-! ### Numerals of decimals -/

/-- Whether a text is read as a decimal of the value of `d`. -/
def ReadsAs (cs : List Char) (d : Decimal) : Prop :=
  ∃ d', decimal? cs = some d' ∧ ∀ negative, Double.ofDecimal negative d' = Double.ofDecimal negative d

theorem ReadsAs.isDecimal {cs : List Char} {d : Decimal} (h : ReadsAs cs d) : IsDecimal cs := by
  obtain ⟨d', hd', -⟩ := h
  exact isSome_decimal?_iff.mp (Option.isSome_of_eq_some hd')

/-- The point of a positional numeral stands `whole` digits after the first. -/
theorem readsAs_positional {digits rest : List Char} {whole : Nat} {exponent : Int} {d : Decimal}
    (hdigits : AreDigits digits) (hne : digits ≠ []) (hrest : exponent? rest = some exponent)
    (hvalue : Nat.ofDigitChars 10 digits 0 = d.digits)
    (hpoint : exponent + whole = d.exponent + digits.length) :
    ReadsAs (positional digits whole ++ rest) d := by
  unfold positional
  dsimp only
  split
  · next hnil =>
    -- All digits stand before the point, and zeros fill up to it.
    have hlength : digits.length ≤ whole := List.drop_eq_nil_iff.mp hnil
    have hexponent : exponent + (whole - digits.length : Nat) = d.exponent := by omega
    have hread := decimal?_whole (List.append_ne_nil_of_left_ne_nil hne _)
      (hdigits.append (areDigits_replicate_zero (whole - digits.length))) hrest
    rw [Nat.ofDigitChars_append, hvalue, Nat.ofDigitChars_replicate_zero, Nat.mul_comm] at hread
    rw [List.take_of_length_le hlength, List.append_nil]
    refine ⟨_, hread, fun negative => ?_⟩
    rw [← Nat.pow_eq, Double.ofDecimal_shift, hexponent]
  · next hfraction =>
    have hlength : whole < digits.length :=
      Nat.not_le.mp fun hle => hfraction (List.drop_eq_nil_iff.mpr hle)
    have hzeros : whole - digits.length = 0 := by omega
    have hexponent : exponent - (digits.length - whole : Nat) = d.exponent := by omega
    have hsplit : digits.take whole ++ digits.drop whole = digits := List.take_append_drop whole digits
    have hread := decimal?_fraction (by rwa [hsplit])
      (fun c hc => hdigits c (List.mem_of_mem_take hc)) (fun c hc => hdigits c (List.mem_of_mem_drop hc))
      hrest
    rw [hsplit, hvalue, List.length_drop, hexponent] at hread
    rw [hzeros, List.replicate_zero, List.append_nil, List.append_assoc]
    exact ⟨_, hread, fun negative => rfl⟩

/-- Below one, a zero stands before the point, and zeros between the point and the digits. -/
theorem readsAs_fraction {digits : List Char} {zeros : Nat} {d : Decimal} (hdigits : AreDigits digits)
    (hvalue : Nat.ofDigitChars 10 digits 0 = d.digits) (hpoint : d.exponent + digits.length = -zeros) :
    ReadsAs ('0' :: '.' :: (List.replicate zeros '0' ++ digits)) d := by
  have hlength : 0 - ((List.replicate zeros '0' ++ digits).length : Int) = d.exponent := by
    rw [List.length_append, List.length_replicate]
    omega
  have hzeros :
      Nat.ofDigitChars 10 (List.replicate 1 '0' ++ (List.replicate zeros '0' ++ digits)) 0 = d.digits := by
    rw [← List.append_assoc, List.replicate_append_replicate, Nat.ofDigitChars_append,
      Nat.ofDigitChars_replicate_zero, Nat.mul_zero, hvalue]
  have hread : decimal? (List.replicate 1 '0' ++ '.' :: (List.replicate zeros '0' ++ digits ++ [])) = _ :=
    decimal?_fraction (List.cons_ne_nil _ _) (areDigits_replicate_zero 1)
      ((areDigits_replicate_zero zeros).append hdigits) (rfl : exponent? [] = some 0)
  rw [hzeros, hlength, List.append_nil] at hread
  exact ⟨_, hread, fun negative => rfl⟩

/-- **What is printed of a decimal is read as its value**, wherever its leading digit lies short of the cutoff
of exponents. -/
theorem readsAs_ofDecimal (form : Form) {d : Decimal}
    (h : d.leadingExponent.natAbs < 10 * exponentCutoff) : ReadsAs (ofDecimal form d) d := by
  have hdigits := areDigits_toDigits d.digits
  have hvalue : Nat.ofDigitChars 10 (Nat.toDigits 10 d.digits) 0 = d.digits := Nat.ofDigitChars_ten_toDigits
  have hne : Nat.toDigits 10 d.digits ≠ [] := Nat.toDigits_ne_nil
  unfold Decimal.leadingExponent at h
  unfold ofDecimal
  dsimp only
  split
  · split
    · next hneg =>
      exact readsAs_fraction hdigits hvalue (by omega)
    · next hpos =>
      rw [← List.append_nil (positional _ _)]
      exact readsAs_positional hdigits hne rfl hvalue (by omega)
  · exact readsAs_positional hdigits hne (exponent?_toDigits h) hvalue (by omega)

/-! ### The characters of decimals -/

/-- A digit, the point, an exponent mark or a sign. -/
def IsDecimalChar (c : Char) : Prop := c.isDigit ∨ c ∈ ['.', 'e', 'E', '+', '-']

instance (c : Char) : Decidable (IsDecimalChar c) := inferInstanceAs (Decidable (_ ∨ _))

/-- What consists of characters of decimals. -/
def AreDecimalChars (cs : List Char) : Prop := ∀ c ∈ cs, IsDecimalChar c

theorem AreDigits.areDecimalChars {cs : List Char} (h : AreDigits cs) : AreDecimalChars cs :=
  fun c hc => .inl (h c hc)

theorem AreDecimalChars.cons {c : Char} {cs : List Char} (hc : IsDecimalChar c) (hcs : AreDecimalChars cs) :
    AreDecimalChars (c :: cs) :=
  List.forall_mem_cons.mpr ⟨hc, hcs⟩

theorem AreDecimalChars.append {cs ds : List Char} (hcs : AreDecimalChars cs) (hds : AreDecimalChars ds) :
    AreDecimalChars (cs ++ ds) :=
  List.forall_mem_append.mpr ⟨hcs, hds⟩

theorem IsSign.areDecimalChars {cs : List Char} (h : IsSign cs) : AreDecimalChars cs := by
  rcases h with rfl | rfl | rfl <;> simp [AreDecimalChars, IsDecimalChar]

theorem IsMantissa.areDecimalChars {cs : List Char} (h : IsMantissa cs) : AreDecimalChars cs := by
  have hpoint : IsDecimalChar '.' := by decide
  cases h with
  | whole _ hdigits => exact hdigits.areDecimalChars
  | fraction _ hdigits hfraction =>
    exact hdigits.areDecimalChars.append (hfraction.areDecimalChars.cons hpoint)
  | point _ hfraction => exact hfraction.areDecimalChars.cons hpoint

theorem IsExponent.areDecimalChars {cs : List Char} (h : IsExponent cs) : AreDecimalChars cs := by
  cases h with
  | none => exact AreDigits.nil.areDecimalChars
  | marked hmark hsign _ hdigits =>
    exact .cons (by rcases hmark with rfl | rfl <;> decide)
      (hsign.areDecimalChars.append hdigits.areDecimalChars)

theorem IsDecimal.areDecimalChars {cs : List Char} (h : IsDecimal cs) : AreDecimalChars cs := by
  cases h with
  | intro hmantissa hexponent => exact hmantissa.areDecimalChars.append hexponent.areDecimalChars

theorem IsDecimal.ne_nil {cs : List Char} (h : IsDecimal cs) : cs ≠ [] := by
  cases h with
  | intro hmantissa hexponent =>
    refine List.append_ne_nil_of_left_ne_nil ?_ _
    cases hmantissa <;> simp [*]

theorem IsDecimalChar.isBlank {c : Char} (h : IsDecimalChar c) : Text.isBlank c = false := by
  have hblank : ∀ n < 128, IsDecimalChar (Char.ofNat n) → Text.isBlank (Char.ofNat n) = false := by
    decide +kernel
  have hsmall : c.toNat < 128 := by
    rcases h with h | h
    · simp only [Char.isDigit, Bool.and_eq_true, decide_eq_true_eq] at h
      exact Nat.lt_of_le_of_lt h.2 (by decide)
    · have hmarks : ['.', 'e', 'E', '+', '-'].all fun c => c.toNat < 128 := by decide
      exact of_decide_eq_true (List.all_eq_true.mp hmarks c h)
  have hchar := hblank c.toNat hsmall
  rw [Char.ofNat_toNat] at hchar
  exact hchar h

/-- Only blanks are trimmed. -/
theorem trim_of_not_isBlank {cs : List Char} (h : ∀ c ∈ cs, Text.isBlank c = false) : Text.trim cs = cs := by
  have hdrop : ∀ {cs : List Char}, (∀ c ∈ cs, Text.isBlank c = false) → cs.dropWhile Text.isBlank = cs := by
    intro cs h
    cases cs with
    | nil => rfl
    | cons c cs =>
      rw [List.dropWhile_cons_of_neg]
      rw [h c List.mem_cons_self]
      decide
  have hreverse : ∀ c ∈ cs.reverse, Text.isBlank c = false := fun c hc => h c (List.mem_reverse.mp hc)
  rw [Text.trim, hdrop h, hdrop hreverse, List.reverse_reverse]

theorem AreDecimalChars.trim {cs : List Char} (h : AreDecimalChars cs) : Text.trim cs = cs :=
  trim_of_not_isBlank fun c hc => (h c hc).isBlank

/-- A decimal is no name of infinity and has no radix mark. -/
theorem AreDecimalChars.number? {cs : List Char} (hne : cs ≠ []) (h : AreDecimalChars cs) :
    number? cs = signedDecimal? cs := by
  have hinfinity : infinity? cs = none := by
    rw [← Option.not_isSome_iff_eq_none, isSome_infinity?_iff]
    rintro ⟨sign, -, rfl⟩
    have hname : IsDecimalChar 'I' := h 'I' (List.mem_append_right _ (by decide))
    revert hname
    decide
  have hradix : radixInteger? cs = none := by
    rw [← Option.not_isSome_iff_eq_none, isSome_radixInteger?_iff]
    intro hcs
    cases hcs with
    | @intro form mark digits hform hmark =>
      have hmarks : ∀ form ∈ radixForms, form.marks.all fun mark => ¬ IsDecimalChar mark := by decide
      exact of_decide_eq_true (List.all_eq_true.mp (hmarks form hform) mark hmark) (h mark (by simp))
  rw [number?_eq_or hne, hinfinity, hradix, Option.none_or, Option.none_or]

/-- The text of a decimal, with a minus or without, denotes what the decimal is read as. -/
theorem ReadsAs.ofText {cs : List Char} {d : Decimal} (h : ReadsAs cs d) (negative : Bool) :
    Double.ofText (String.ofList (if negative then '-' :: cs else cs)) = Double.ofDecimal negative d := by
  obtain ⟨sign, hsign, htext, hsplit⟩ : ∃ sign, IsSign sign ∧
      (if negative then '-' :: cs else cs) = sign ++ cs ∧ splitSign (sign ++ cs) = (negative, cs) := by
    cases negative with
    | false => exact ⟨[], .inl rfl, rfl, splitSign_of_isUnsigned h.isDecimal.isUnsigned⟩
    | true => exact ⟨['-'], .inr (.inr rfl), rfl, rfl⟩
  have hne : sign ++ cs ≠ [] := List.append_ne_nil_of_right_ne_nil _ h.isDecimal.ne_nil
  have hchars := hsign.areDecimalChars.append h.isDecimal.areDecimalChars
  obtain ⟨d', hread, heq⟩ := h
  have hnumber : number? (sign ++ cs) = some (Double.ofDecimal negative d') := by
    rw [hchars.number? hne, signedDecimal?, hsplit]
    dsimp only
    rw [hread, Option.map_some]
  rw [Double.ofText, htext, String.toList_ofList, hchars.trim, hnumber, Option.getD_some, heq]

end Numeral

/-! ### Numbers -/

namespace Double

theorem ofText_toText_finite (negative : Bool) {m : Magnitude} (hm : m.units ≠ 0) :
    ofText (toText (finite negative m)) = finite negative m := by
  have hread := m.isReadFrom_shortest
  have hlow := m.leadingExponent_shortest_ge
  have hhigh := hread.leadingExponent_lt hm
  have hcutoff : m.shortest.leadingExponent.natAbs < 10 * Numeral.exponentCutoff := by
    have hplace : Magnitude.finestPlace = 324 := rfl
    have hlimit : Magnitude.leadingLimit = 309 := rfl
    have hexponent : Numeral.exponentCutoff = 65536 := rfl
    omega
  have htext : toText (finite negative m) = String.ofList (if negative then
      '-' :: Numeral.ofDecimal .default m.shortest else Numeral.ofDecimal .default m.shortest) := if_neg hm
  rw [htext, (Numeral.readsAs_ofDecimal .default hcutoff).ofText, hread.ofDecimal_eq]

/-- **The text of a number denotes the number**, and that of either zero the zero. -/
theorem ofText_toText (x : Double) : ofText x.toText = if x.isZero then zero else x := by
  cases x with
  | nan => decide +kernel
  | infinity negative => cases negative <;> decide +kernel
  | finite negative m =>
    by_cases hm : m.units = 0
    · have htext : toText (finite negative m) = "0" := if_pos hm
      rw [if_pos (isZero_finite.mpr hm), htext]
      decide +kernel
    · rw [if_neg fun hzero => hm (isZero_finite.mp hzero), ofText_toText_finite negative hm]

theorem same_ofText_toText (x : Double) : (ofText x.toText).same x := by
  rw [same_iff, ofText_toText]
  split
  · next hzero => rw [position_zero, isZero_iff.mp hzero]
  · rfl

theorem numEq_ofText_toText {x : Double} (h : x ≠ nan) : x.numEq (ofText x.toText) := by
  obtain ⟨p, hp⟩ := exists_position_eq_some h
  exact numEq_iff.mpr ⟨p, hp, (same_iff.mp x.same_ofText_toText).trans hp⟩

end Double

/-- **A number comes back from its text.** The text denotes a number strictly equal to it: the number itself,
or for a zero of either sign the zero. A number, which not-a-number is not, is also loosely equal to its
text. -/
theorem Value.number_ofText_toText (x : Double) :
    (number (.ofText x.toText)).strictEq (number x) ∧
      .ofText x.toText = (if x.isZero then .zero else x) ∧
      (x ≠ .nan → (number x).looseEq (text x.toText)) :=
  ⟨x.same_ofText_toText, x.ofText_toText, fun h => Double.numEq_ofText_toText h⟩

/-- A number that is printed in exponent form. -/
theorem Value.number_ofText_toText_tiny :
    let x := Double.ofDecimal true ⟨15, -8⟩
    x ≠ .nan ∧ (number (.ofText x.toText)).strictEq (number x) ∧ (number x).looseEq (text x.toText) := by
  intro x
  have hx : x ≠ .nan := by decide +kernel
  exact ⟨hx, (Value.number_ofText_toText x).1, (Value.number_ofText_toText x).2.2 hx⟩

end SlotScript
