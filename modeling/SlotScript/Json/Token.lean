import SlotScript.Numeral.Read

/-!
The tokens of a JSON document.

The grammar is the strict one: only the four blank characters of JSON, no control characters inside a
string, no leading zeros and no bare point.
-/

namespace SlotScript.Json

/-- A token that is not punctuation. -/
inductive Scalar where
  | null
  | boolean (b : Bool)
  /-- An integer without a sign. -/
  | natural (n : Nat)
  /-- Any other number. -/
  | otherNumber
  /-- A string, if its escapes denote characters. -/
  | string (s : Option String)
deriving DecidableEq

/-- A token. -/
inductive Token where
  | openObject
  | closeObject
  | openArray
  | closeArray
  | colon
  | comma
  | scalar (s : Scalar)
deriving DecidableEq

/-! ### Numbers -/

/-- A character that can occur in a number. -/
def isNumberChar (c : Char) : Bool :=
  c.isDigit || c = '-' || c = '+' || c = '.' || c = 'e' || c = 'E'

/-- Whether `cs` is an integer part: one zero, or digits without a leading zero. -/
def isWhole (cs : List Char) : Bool :=
  cs = ['0'] || (cs ≠ [] && cs.head? ≠ some '0')

/-- Whether `cs` is a number without a sign. -/
def isUnsignedNumber (cs : List Char) : Bool :=
  isWhole (cs.takeWhile Char.isDigit) &&
    match cs.dropWhile Char.isDigit with
    | '.' :: rest =>
      rest.takeWhile Char.isDigit ≠ [] && (Numeral.exponent? (rest.dropWhile Char.isDigit)).isSome
    | rest => (Numeral.exponent? rest).isSome

/-- Reads a number. -/
def number? (cs : List Char) : Option Scalar :=
  match cs with
  | '-' :: rest => if isUnsignedNumber rest then some .otherNumber else none
  | _ =>
    if isUnsignedNumber cs then
      if cs.all Char.isDigit then some (.natural (Nat.ofDigitChars 10 cs 0)) else some .otherNumber
    else none

/-! ### Strings -/

/-- The characters that a sequence of UTF-16 units and code points denotes; a unit of a surrogate pair
alone denotes none. -/
def charsOfUnits : List Nat → Option (List Char)
  | [] => some []
  | [unit] => if unit.isValidChar then some [Char.ofNat unit] else none
  | first :: second :: rest =>
    if 0xD800 ≤ first ∧ first < 0xDC00 ∧ 0xDC00 ≤ second ∧ second < 0xE000 then
      (charsOfUnits rest).map
        (Char.ofNat (0x10000 + (first - 0xD800) * 0x400 + (second - 0xDC00)) :: ·)
    else if first.isValidChar then (charsOfUnits (second :: rest)).map (Char.ofNat first :: ·)
    else none

/-- The code point of an escape with one letter. -/
def shortEscape? (c : Char) : Option Nat :=
  match c with
  | '"' | '\\' | '/' => some c.toNat
  | 'b' => some 0x08
  | 'f' => some 0x0C
  | 'n' => some 0x0A
  | 'r' => some 0x0D
  | 't' => some 0x09
  | _ => none

/-- The units of a string up to its closing quote, and what follows. -/
def stringUnits? : List Char → Option (List Nat × List Char)
  | [] => none
  | '"' :: rest => some ([], rest)
  | '\\' :: 'u' :: a :: b :: c :: d :: rest => do
    let digits ← [a, b, c, d].mapM (Numeral.digitValue? 16)
    let (units, rest) ← stringUnits? rest
    return (digits.foldl (16 * · + ·) 0 :: units, rest)
  | '\\' :: c :: rest => do
    let unit ← shortEscape? c
    let (units, rest) ← stringUnits? rest
    return (unit :: units, rest)
  | c :: rest =>
    if c.toNat < 0x20 ∨ c = '\\' then none
    else do
      let (units, rest) ← stringUnits? rest
      return (c.toNat :: units, rest)

/-! ### Tokens -/

/-- A blank character of JSON. -/
def isJsonBlank (c : Char) : Bool := c = ' ' || c = '\t' || c = '\n' || c = '\r'

/-- The words of JSON. -/
def word? (cs : List Char) : Option Scalar :=
  if cs = "null".toList then some .null
  else if cs = "true".toList then some (.boolean true)
  else if cs = "false".toList then some (.boolean false)
  else none

/-- The token that a punctuation mark stands for. -/
def punctuation? (c : Char) : Option Token :=
  match c with
  | '\x7b' => some .openObject
  | '\x7d' => some .closeObject
  | '[' => some .openArray
  | ']' => some .closeArray
  | ':' => some .colon
  | ',' => some .comma
  | _ => none

/-- The token at the head of `c :: cs`, which does not start with a blank, and what follows it. -/
def token? (c : Char) (cs : List Char) : Option (Token × List Char) :=
  match punctuation? c with
  | some token => some (token, cs)
  | none =>
    if c = '"' then do
      let (units, rest) ← stringUnits? cs
      return (.scalar (.string ((charsOfUnits units).map String.ofList)), rest)
    else if isNumberChar c then do
      let number ← number? (c :: cs.takeWhile isNumberChar)
      return (.scalar number, cs.dropWhile isNumberChar)
    else do
      let word ← word? (c :: cs.takeWhile Char.isAlpha)
      return (.scalar word, cs.dropWhile Char.isAlpha)

theorem length_stringUnits?_le {cs rest : List Char} {units : List Nat}
    (h : stringUnits? cs = some (units, rest)) : rest.length ≤ cs.length := by
  fun_induction stringUnits? cs generalizing units rest with
  | case1 => simp at h
  | case2 => simp_all
  | case3 a b c d cs ih | case4 c cs _ ih | case6 c cs _ _ _ _ ih =>
    simp only [bind, pure, Option.bind_eq_some_iff, Option.some.injEq, Prod.mk.injEq] at h
    simp only [List.length_cons]
    grind
  | case5 => simp at h

theorem length_token?_le {c : Char} {cs rest : List Char} {token : Token}
    (h : token? c cs = some (token, rest)) : rest.length ≤ cs.length := by
  have := (List.dropWhile_suffix (l := cs) isNumberChar).length_le
  have := (List.dropWhile_suffix (l := cs) Char.isAlpha).length_le
  simp only [token?, bind, pure] at h
  split at h
  · grind
  · split at h
    · obtain ⟨⟨units, rest'⟩, hunits, h⟩ := Option.bind_eq_some_iff.1 h
      have := length_stringUnits?_le hunits
      grind
    · split at h <;> obtain ⟨_, _, h⟩ := Option.bind_eq_some_iff.1 h <;> grind

/-- The tokens of a text. -/
def tokens? : List Char → Option (List Token)
  | [] => some []
  | c :: cs =>
    if isJsonBlank c then tokens? cs
    else
      match _ : token? c cs with
      | none => none
      | some (token, rest) => (tokens? rest).map (token :: ·)
termination_by cs => cs.length
decreasing_by
  · simp
  · have := length_token?_le ‹token? c cs = some (token, rest)›
    simp only [List.length_cons]
    omega

end SlotScript.Json
