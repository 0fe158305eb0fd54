import SlotScript.Numeral.Read
import SlotScript.Proofs.Numeral.Digits

/-!
# The grammar of numerals

`IsNumeral` is the grammar: nothing at all, a name of infinity, an integer with a radix mark, a decimal with
an optional sign, fraction and exponent. It is stated by how a numeral is put together; the reader takes a
text apart, and no rule here calls it.

Each reader accepts the texts of its rule and no other (`isSome_radixInteger?_iff`, `isSome_exponent?_iff`,
`isSome_decimal?_iff`, `isSome_signedDecimal?_iff`), and what is accepted, however long, denotes a number
(`number?_ne_nan`). So the texts that denote a number are the numerals between blanks
(`Double.ofText_ne_nan_iff`).
-/

namespace SlotScript

namespace Numeral

/-! ### The rules -/

/-- An optional sign. -/
def IsSign (cs : List Char) : Prop := cs = [] ∨ cs = ['+'] ∨ cs = ['-']

/-- Decimal digits, or none. -/
def AreDigits (cs : List Char) : Prop := ∀ c ∈ cs, c.isDigit

/-- How integers of one radix are written: what may follow the leading zero, and the digits. -/
structure RadixForm where
  radix : Nat
  marks : List Char
  digits : List Char

/-- The three radices. -/
def radixForms : List RadixForm :=
  [⟨16, ['x', 'X'], "0123456789abcdefABCDEF".toList⟩,
    ⟨8, ['o', 'O'], "01234567".toList⟩,
    ⟨2, ['b', 'B'], "01".toList⟩]

/-- A zero, a radix mark and at least one digit of the radix. There is no sign. -/
inductive IsRadixInteger : List Char → Prop where
  | intro {form : RadixForm} {mark : Char} {digits : List Char} (hform : form ∈ radixForms)
      (hmark : mark ∈ form.marks) (hne : digits ≠ []) (hdigits : digits ⊆ form.digits) :
      IsRadixInteger ('0' :: mark :: digits)

/-- What stands before the exponent: digits, with a point after or before some of them. -/
inductive IsMantissa : List Char → Prop where
  | whole {digits : List Char} (hne : digits ≠ []) (hdigits : AreDigits digits) : IsMantissa digits
  | fraction {digits fraction : List Char} (hne : digits ≠ []) (hdigits : AreDigits digits)
      (hfraction : AreDigits fraction) : IsMantissa (digits ++ '.' :: fraction)
  | point {fraction : List Char} (hne : fraction ≠ []) (hfraction : AreDigits fraction) :
      IsMantissa ('.' :: fraction)

/-- An optional exponent: a mark, an optional sign and at least one digit. -/
inductive IsExponent : List Char → Prop where
  | none : IsExponent []
  | marked {mark : Char} {sign digits : List Char} (hmark : mark = 'e' ∨ mark = 'E')
      (hsign : IsSign sign) (hne : digits ≠ []) (hdigits : AreDigits digits) :
      IsExponent (mark :: (sign ++ digits))

/-- A decimal without a sign. -/
inductive IsDecimal : List Char → Prop where
  | intro {mantissa exponent : List Char} (hmantissa : IsMantissa mantissa)
      (hexponent : IsExponent exponent) : IsDecimal (mantissa ++ exponent)

/-- A numeral, without blanks around it. -/
inductive IsNumeral : List Char → Prop where
  | empty : IsNumeral []
  | infinity {sign : List Char} (hsign : IsSign sign) : IsNumeral (sign ++ "Infinity".toList)
  | radixInteger {cs : List Char} (hcs : IsRadixInteger cs) : IsNumeral cs
  | decimal {sign cs : List Char} (hsign : IsSign sign) (hcs : IsDecimal cs) : IsNumeral (sign ++ cs)

/-! ### Infinity -/

theorem isSome_infinity?_iff {cs : List Char} :
    (infinity? cs).isSome ↔ ∃ sign, IsSign sign ∧ cs = sign ++ "Infinity".toList := by
  have hrule : (∃ sign, IsSign sign ∧ cs = sign ++ "Infinity".toList) ↔
      (cs = "Infinity".toList ∨ cs = "+Infinity".toList) ∨ cs = "-Infinity".toList := by
    simp only [IsSign, or_and_right, exists_or, exists_eq_left, or_assoc]
    exact Iff.rfl
  rw [hrule, infinity?]
  split
  · next h => simp only [h, Option.isSome_some, true_or]
  · next h =>
    split
    · next h' => simp only [h', Option.isSome_some, or_true]
    · next h' => simp only [h, h', Option.isSome_none, Bool.false_eq_true, or_self]

/-! ### Integers with a radix mark -/

/-- The marks of two radices differ, so the order in which they are tried does not matter. -/
theorem radixOfMark?_eq_some_iff {mark : Char} {radix : Nat} :
    radixOfMark? mark = some radix ↔ ∃ form ∈ radixForms, mark ∈ form.marks ∧ form.radix = radix := by
  unfold radixOfMark?
  simp only [radixForms, List.mem_cons, List.not_mem_nil, or_false, exists_eq_or_imp, exists_eq_left]
  split
  · next h => rcases h with rfl | rfl <;> simp
  · next hx =>
    split
    · next h => rcases h with rfl | rfl <;> simp
    · next ho =>
      split
      · next h => rcases h with rfl | rfl <;> simp
      · next hb => simp [hx, ho, hb]

theorem toNat_lt_of_isSome_digitValue? {radix : Nat} {c : Char} (h : (digitValue? radix c).isSome) :
    c.toNat < 128 := by
  refine Decidable.by_contra fun hc => ?_
  have hle {d : Char} (hd : d.toNat < 128) : ¬ c ≤ d := fun hcd => hc (Nat.lt_of_le_of_lt hcd hd)
  have h9 : ¬ c ≤ '9' := hle (by decide)
  have hf : ¬ c ≤ 'f' := hle (by decide)
  have hF : ¬ c ≤ 'F' := hle (by decide)
  simp only [digitValue?, h9, hf, hF, and_false, if_false, Nat.lt_irrefl, Option.isSome_none,
    Bool.false_eq_true] at h

/-- The digits that have a value are those of the form, all of them among the first 128 characters. -/
theorem isSome_digitValue?_iff {form : RadixForm} (hform : form ∈ radixForms) {c : Char} :
    (digitValue? form.radix c).isSome ↔ c ∈ form.digits := by
  have hdigits : ∀ form ∈ radixForms, form.digits.all fun c => c.toNat < 128 := by decide
  have htable : ∀ form ∈ radixForms, ∀ n < 128,
      (digitValue? form.radix (Char.ofNat n)).isSome ↔ Char.ofNat n ∈ form.digits := by decide +kernel
  by_cases hc : c.toNat < 128
  · have hchar := htable form hform c.toNat hc
    rwa [Char.ofNat_toNat] at hchar
  · exact iff_of_false (fun h => hc (toNat_lt_of_isSome_digitValue? h))
      fun hmem => hc (of_decide_eq_true (List.all_eq_true.mp (hdigits form hform) c hmem))

theorem isSome_mapM_iff {α β : Type} {f : α → Option β} {as : List α} :
    (as.mapM f).isSome ↔ ∀ a ∈ as, (f a).isSome := by
  induction as with
  | nil => simp
  | cons a as ih =>
    rw [List.mapM_cons, List.forall_mem_cons, ← ih]
    cases f a with
    | none => simp
    | some b => cases as.mapM f <;> simp

theorem map_eq_of_mapM_eq_some {α β : Type} {f : α → Option β} {as : List α} {bs : List β}
    (h : as.mapM f = some bs) : as.map f = bs.map some := by
  induction as generalizing bs with
  | nil =>
    cases h
    rfl
  | cons a as ih =>
    rw [List.mapM_cons] at h
    obtain ⟨b, hb, h⟩ := Option.bind_eq_some_iff.mp h
    obtain ⟨bs, hbs, h⟩ := Option.bind_eq_some_iff.mp h
    cases h
    rw [List.map_cons, List.map_cons, hb, ih hbs]

/-- An integer that is read has a radix and the values of its digits, of which there is one. -/
theorem radixInteger?_eq_some_iff {cs : List Char} {x : Double} :
    radixInteger? cs = some x ↔ ∃ mark digits radix values, cs = '0' :: mark :: digits ∧
      radixOfMark? mark = some radix ∧ digits.mapM (digitValue? radix) = some values ∧
        digits ≠ [] ∧ ofDigits radix values = x := by
  constructor
  · intro h
    unfold radixInteger? at h
    split at h
    · next mark digits =>
      obtain ⟨radix, hradix, h⟩ := Option.bind_eq_some_iff.mp h
      obtain ⟨values, hvalues, h⟩ := Option.bind_eq_some_iff.mp h
      split at h
      · cases h
      · next hne =>
        refine ⟨mark, digits, radix, values, rfl, hradix, hvalues, ?_, Option.some.inj h⟩
        rintro rfl
        exact hne (Option.some.inj hvalues).symm
    · cases h
  · rintro ⟨mark, digits, radix, values, rfl, hradix, hvalues, hne, rfl⟩
    have hvaluesNe : values ≠ [] := by
      rintro rfl
      exact hne (List.map_eq_nil_iff.mp (map_eq_of_mapM_eq_some hvalues))
    simp only [radixInteger?, hradix, hvalues, Option.bind_eq_bind, Option.bind_some, if_neg hvaluesNe]

theorem isSome_radixInteger?_iff {cs : List Char} : (radixInteger? cs).isSome ↔ IsRadixInteger cs := by
  rw [Option.isSome_iff_exists]
  constructor
  · rintro ⟨x, hx⟩
    obtain ⟨mark, digits, radix, values, rfl, hradix, hvalues, hne, -⟩ := radixInteger?_eq_some_iff.mp hx
    obtain ⟨form, hform, hmark, rfl⟩ := radixOfMark?_eq_some_iff.mp hradix
    have hsome := isSome_mapM_iff.mp (Option.isSome_of_eq_some hvalues)
    exact .intro hform hmark hne fun c hc => (isSome_digitValue?_iff hform).mp (hsome c hc)
  · intro h
    cases h with
    | @intro form mark digits hform hmark hne hdigits =>
      have hsome : (digits.mapM (digitValue? form.radix)).isSome :=
        isSome_mapM_iff.mpr fun c hc => (isSome_digitValue?_iff hform).mpr (hdigits hc)
      obtain ⟨values, hvalues⟩ := Option.isSome_iff_exists.mp hsome
      exact ⟨_, radixInteger?_eq_some_iff.mpr ⟨mark, digits, form.radix, values, rfl,
        radixOfMark?_eq_some_iff.mpr ⟨form, hform, hmark, rfl⟩, hvalues, hne, rfl⟩⟩

/-! ### Signs -/

theorem AreDigits.nil : AreDigits [] := by
  simp [AreDigits]

theorem AreDigits.append {cs ds : List Char} (hcs : AreDigits cs) (hds : AreDigits ds) :
    AreDigits (cs ++ ds) :=
  List.forall_mem_append.mpr ⟨hcs, hds⟩

theorem isSign_splitSign (cs : List Char) : ∃ sign, IsSign sign ∧ cs = sign ++ (splitSign cs).2 := by
  unfold splitSign
  split
  · exact ⟨['-'], .inr (.inr rfl), rfl⟩
  · exact ⟨['+'], .inr (.inl rfl), rfl⟩
  · exact ⟨[], .inl rfl, rfl⟩

/-- What a sign can stand before. -/
def IsUnsigned (cs : List Char) : Prop := '-' ∉ cs.head? ∧ '+' ∉ cs.head?

theorem splitSign_of_isUnsigned {cs : List Char} (h : IsUnsigned cs) : splitSign cs = (false, cs) := by
  unfold splitSign
  split
  · exact absurd rfl h.1
  · exact absurd rfl h.2
  · rfl

theorem splitSign_append {sign cs : List Char} (hsign : IsSign sign) (h : IsUnsigned cs) :
    (splitSign (sign ++ cs)).2 = cs := by
  rcases hsign with rfl | rfl | rfl
  · rw [List.nil_append, splitSign_of_isUnsigned h]
  · rfl
  · rfl

theorem AreDigits.isUnsigned {cs : List Char} (h : AreDigits cs) : IsUnsigned cs :=
  ⟨fun hc => absurd (h '-' (List.mem_of_mem_head? hc)) (by decide),
    fun hc => absurd (h '+' (List.mem_of_mem_head? hc)) (by decide)⟩

/-! ### Decimals -/

theorem isSome_exponent?_iff {cs : List Char} : (exponent? cs).isSome ↔ IsExponent cs := by
  constructor
  · intro h
    cases cs with
    | nil => exact .none
    | cons mark cs =>
      obtain ⟨sign, hsign, hcs⟩ := isSign_splitSign cs
      unfold exponent? at h
      dsimp only at h
      split at h
      · next hread =>
        rw [hcs]
        exact .marked hread.1 hsign hread.2.1 (List.all_eq_true.mp hread.2.2)
      · cases h
  · intro h
    cases h with
    | none => rfl
    | @marked mark sign digits hmark hsign hne hdigits =>
      have hsplit := splitSign_append hsign hdigits.isUnsigned
      unfold exponent?
      dsimp only
      rw [hsplit, if_pos ⟨hmark, hne, List.all_eq_true.mpr hdigits⟩]
      rfl

/-- What can follow digits that are read as far as they go. -/
def NoDigitFirst (cs : List Char) : Prop := ∀ c ∈ cs.head?, ¬ c.isDigit

theorem takeWhile_isDigit_append {digits rest : List Char} (hdigits : AreDigits digits)
    (hrest : NoDigitFirst rest) : (digits ++ rest).takeWhile Char.isDigit = digits := by
  rw [List.takeWhile_append_of_pos hdigits]
  cases rest with
  | nil => exact List.append_nil _
  | cons c rest => rw [List.takeWhile_cons_of_neg (hrest c rfl), List.append_nil]

theorem dropWhile_isDigit_append {digits rest : List Char} (hdigits : AreDigits digits)
    (hrest : NoDigitFirst rest) : (digits ++ rest).dropWhile Char.isDigit = rest := by
  rw [List.dropWhile_append_of_pos hdigits]
  cases rest with
  | nil => rfl
  | cons c rest => rw [List.dropWhile_cons_of_neg (hrest c rfl)]

theorem areDigits_takeWhile (cs : List Char) : AreDigits (cs.takeWhile Char.isDigit) :=
  List.all_eq_true.mp List.all_takeWhile

theorem IsExponent.noDigitFirst {cs : List Char} (h : IsExponent cs) : NoDigitFirst cs := by
  cases h with
  | none =>
    rintro c ⟨⟩
  | marked hmark =>
    rintro c ⟨⟩
    rcases hmark with rfl | rfl <;> decide

theorem IsExponent.splitFraction {cs : List Char} (h : IsExponent cs) : splitFraction cs = ([], cs) := by
  cases h with
  | none => rfl
  | marked hmark => rcases hmark with rfl | rfl <;> rfl

/-- Digits with no point after them are read as a whole number. -/
theorem decimal?_whole {digits rest : List Char} {e : Int} (hne : digits ≠ [])
    (hdigits : AreDigits digits) (hrest : exponent? rest = some e) :
    decimal? (digits ++ rest) = some ⟨Nat.ofDigitChars 10 digits 0, e⟩ := by
  have hexponent := isSome_exponent?_iff.mp (Option.isSome_of_eq_some hrest)
  have hfirst := hexponent.noDigitFirst
  simp only [decimal?, takeWhile_isDigit_append hdigits hfirst, dropWhile_isDigit_append hdigits hfirst,
    hexponent.splitFraction, hne, false_and, if_false, hrest, List.append_nil, List.length_nil,
    Int.natCast_zero, Int.sub_zero]
  rfl

/-- The digits after a point move the exponent. -/
theorem decimal?_fraction {digits fraction rest : List Char} {e : Int} (hne : digits ++ fraction ≠ [])
    (hdigits : AreDigits digits) (hfraction : AreDigits fraction) (hrest : exponent? rest = some e) :
    decimal? (digits ++ '.' :: (fraction ++ rest)) =
      some ⟨Nat.ofDigitChars 10 (digits ++ fraction) 0, e - fraction.length⟩ := by
  have hpoint : NoDigitFirst ('.' :: (fraction ++ rest)) := by
    rintro c ⟨⟩
    decide
  have hfirst := (isSome_exponent?_iff.mp (Option.isSome_of_eq_some hrest)).noDigitFirst
  simp only [decimal?, takeWhile_isDigit_append hdigits hpoint, dropWhile_isDigit_append hdigits hpoint,
    splitFraction, takeWhile_isDigit_append hfraction hfirst, dropWhile_isDigit_append hfraction hfirst,
    ← List.append_eq_nil_iff, hne, if_false, hrest]
  rfl

/-- Either there is no point, or the digits after it are split off. -/
theorem splitFraction_spec {cs fraction rest : List Char} (h : splitFraction cs = (fraction, rest)) :
    fraction = [] ∧ cs = rest ∨ AreDigits fraction ∧ cs = '.' :: (fraction ++ rest) := by
  unfold splitFraction at h
  split at h
  · cases h
    exact .inr ⟨areDigits_takeWhile _, by rw [List.takeWhile_append_dropWhile]⟩
  · cases h
    exact .inl ⟨rfl, rfl⟩

/-- Digits, the digits after the point if there is one, and an exponent make a decimal. -/
theorem isDecimal_of_splitFraction {whole remaining fraction rest : List Char} (hwhole : AreDigits whole)
    (hsplit : splitFraction remaining = (fraction, rest)) (hne : ¬ (whole = [] ∧ fraction = []))
    (hrest : IsExponent rest) : IsDecimal (whole ++ remaining) := by
  rcases splitFraction_spec hsplit with ⟨rfl, rfl⟩ | ⟨hfraction, rfl⟩
  · exact .intro (.whole (fun hnil => hne ⟨hnil, rfl⟩) hwhole) hrest
  · by_cases hnil : whole = []
    · subst hnil
      show IsDecimal ('.' :: fraction ++ rest)
      exact .intro (.point (fun hnil => hne ⟨rfl, hnil⟩) hfraction) hrest
    · have hdecimal := IsDecimal.intro (.fraction hnil hwhole hfraction) hrest
      rwa [List.append_assoc, List.cons_append] at hdecimal

theorem isSome_decimal?_iff {cs : List Char} : (decimal? cs).isSome ↔ IsDecimal cs := by
  constructor
  · intro h
    cases hsplit : splitFraction (cs.dropWhile Char.isDigit) with
    | mk fraction rest =>
      unfold decimal? at h
      rw [hsplit] at h
      dsimp only at h
      split at h
      · cases h
      · next hne =>
        have hrest : (exponent? rest).isSome := by
          cases hread : exponent? rest with
          | none => simp [hread] at h
          | some e => rfl
        rw [← List.takeWhile_append_dropWhile (p := Char.isDigit) (l := cs)]
        exact isDecimal_of_splitFraction (areDigits_takeWhile cs) hsplit hne
          (isSome_exponent?_iff.mp hrest)
  · intro h
    cases h with
    | @intro mantissa exponent hmantissa hexponent =>
      obtain ⟨e, he⟩ := Option.isSome_iff_exists.mp (isSome_exponent?_iff.mpr hexponent)
      cases hmantissa with
      | whole hne hdigits => exact Option.isSome_of_eq_some (decimal?_whole hne hdigits he)
      | @fraction digits fraction hne hdigits hfraction =>
        rw [List.append_assoc]
        exact Option.isSome_of_eq_some
          (decimal?_fraction (List.append_ne_nil_of_left_ne_nil hne _) hdigits hfraction he)
      | @point fraction hne hfraction =>
        have hread : decimal? ([] ++ '.' :: (fraction ++ exponent)) = _ :=
          decimal?_fraction hne .nil hfraction he
        exact Option.isSome_of_eq_some hread

/-- A mantissa begins with a digit or a point. -/
theorem IsDecimal.isUnsigned {cs : List Char} (h : IsDecimal cs) : IsUnsigned cs := by
  have hhead {digits : List Char} (hne : digits ≠ []) (hdigits : AreDigits digits) (rest : List Char) :
      IsUnsigned (digits ++ rest) := by
    cases digits with
    | nil => exact absurd rfl hne
    | cons c digits => exact (AreDigits.isUnsigned hdigits : IsUnsigned (c :: digits))
  cases h with
  | intro hmantissa hexponent =>
    cases hmantissa with
    | whole hne hdigits => exact hhead hne hdigits _
    | fraction hne hdigits =>
      rw [List.append_assoc]
      exact hhead hne hdigits _
    | point => exact ⟨by simp, by simp⟩

theorem isSome_signedDecimal?_iff {cs : List Char} :
    (signedDecimal? cs).isSome ↔
      ∃ sign unsigned, IsSign sign ∧ IsDecimal unsigned ∧ cs = sign ++ unsigned := by
  have hsome : (signedDecimal? cs).isSome ↔ IsDecimal (splitSign cs).2 := by
    unfold signedDecimal?
    rw [Option.isSome_map, isSome_decimal?_iff]
  rw [hsome]
  constructor
  · intro h
    obtain ⟨sign, hsign, hcs⟩ := isSign_splitSign cs
    exact ⟨sign, _, hsign, h, hcs⟩
  · rintro ⟨sign, unsigned, hsign, hunsigned, rfl⟩
    rwa [splitSign_append hsign hunsigned.isUnsigned]

/-! ### Numerals -/

theorem number?_eq_or {cs : List Char} (h : cs ≠ []) :
    number? cs = (infinity? cs).or ((radixInteger? cs).or (signedDecimal? cs)) := by
  simp only [number?, if_neg h, Option.orElse_eq_orElse, Option.orElse_eq_or]

theorem isSome_number?_iff {cs : List Char} : (number? cs).isSome ↔ IsNumeral cs := by
  have hsome : (number? cs).isSome ↔ cs = [] ∨ (infinity? cs).isSome ∨ (radixInteger? cs).isSome ∨
      (signedDecimal? cs).isSome := by
    by_cases h : cs = []
    · simp [number?, h]
    · simp [number?_eq_or h, h, Option.isSome_or]
  rw [hsome, isSome_infinity?_iff, isSome_radixInteger?_iff, isSome_signedDecimal?_iff]
  constructor
  · rintro (rfl | ⟨sign, hsign, rfl⟩ | h | ⟨sign, unsigned, hsign, hunsigned, rfl⟩)
    · exact .empty
    · exact .infinity hsign
    · exact .radixInteger h
    · exact .decimal hsign hunsigned
  · intro h
    cases h with
    | empty => exact .inl rfl
    | infinity hsign => exact .inr (.inl ⟨_, hsign, rfl⟩)
    | radixInteger h => exact .inr (.inr (.inl h))
    | decimal hsign hcs => exact .inr (.inr (.inr ⟨_, _, hsign, hcs, rfl⟩))

/-! ### What is read is a number -/

theorem digitValue?_lt {radix value : Nat} {c : Char} (h : digitValue? radix c = some value) :
    value < radix := by
  obtain ⟨v, hread⟩ : ∃ v, digitValue? radix c = if v < radix then some v else none := ⟨_, rfl⟩
  rw [hread] at h
  split at h
  · next hlt => exact Option.some.inj h ▸ hlt
  · cases h

theorem lt_of_mapM_digitValue? {radix : Nat} {digits : List Char} {values : List Nat}
    (h : digits.mapM (digitValue? radix) = some values) : ∀ value ∈ values, value < radix := by
  intro value hvalue
  have hmem : some value ∈ digits.map (digitValue? radix) := by
    rw [map_eq_of_mapM_eq_some h]
    exact List.mem_map_of_mem hvalue
  obtain ⟨c, -, hc⟩ := List.mem_map.mp hmem
  exact digitValue?_lt hc

/-- The radices are powers of two. -/
theorem exists_radix_eq {form : RadixForm} (hform : form ∈ radixForms) :
    ∃ k, 0 < k ∧ k ≤ 53 ∧ form.radix = Nat.pow 2 k := by
  simp only [radixForms, List.mem_cons, List.not_mem_nil, or_false] at hform
  rcases hform with rfl | rfl | rfl
  · exact ⟨4, by decide, by decide, rfl⟩
  · exact ⟨3, by decide, by decide, rfl⟩
  · exact ⟨1, by decide, by decide, rfl⟩

theorem radixInteger?_ne_nan {cs : List Char} : radixInteger? cs ≠ some .nan := by
  intro h
  obtain ⟨mark, digits, radix, values, -, hradix, hvalues, -, hnan⟩ := radixInteger?_eq_some_iff.mp h
  obtain ⟨form, hform, -, rfl⟩ := radixOfMark?_eq_some_iff.mp hradix
  obtain ⟨k, -, hk, hpow⟩ := exists_radix_eq hform
  have hlt := lt_of_mapM_digitValue? hvalues
  rw [hpow] at hlt hnan
  rw [ofDigits_eq_ofNat hk hlt] at hnan
  exact Double.round_ne_nan false _ 1 hnan

theorem infinity?_ne_nan {cs : List Char} : infinity? cs ≠ some .nan := by
  unfold infinity?
  split
  · simp
  · split <;> simp

theorem signedDecimal?_ne_nan {cs : List Char} : signedDecimal? cs ≠ some .nan := by
  intro h
  obtain ⟨d, -, hd⟩ := Option.map_eq_some_iff.mp h
  exact Double.round_ne_nan _ _ _ hd

/-- However long a numeral is, it denotes a number. -/
theorem number?_ne_nan {cs : List Char} : number? cs ≠ some .nan := by
  intro h
  by_cases hcs : cs = []
  · rw [number?, if_pos hcs] at h
    exact Double.zero_ne_nan (Option.some.inj h)
  · rw [number?_eq_or hcs] at h
    rcases Option.or_eq_some_iff.mp h with h | ⟨-, h⟩
    · exact infinity?_ne_nan h
    · rcases Option.or_eq_some_iff.mp h with h | ⟨-, h⟩
      · exact radixInteger?_ne_nan h
      · exact signedDecimal?_ne_nan h

end Numeral

/-- **The texts that denote a number are the numerals between blanks.** -/
theorem Double.ofText_ne_nan_iff (text : String) :
    Double.ofText text ≠ .nan ↔ Numeral.IsNumeral (Text.trim text.toList) := by
  rw [← Numeral.isSome_number?_iff]
  unfold ofText
  cases h : Numeral.number? (Text.trim text.toList) with
  | none => simp
  | some x =>
    simp only [Option.getD_some, Option.isSome_some, iff_true]
    rintro rfl
    exact Numeral.number?_ne_nan h

end SlotScript
