import SlotScript.Text.Blank

/-!
Two ways to write a text between double quotes.

`quote` is used inside printed containers: it escapes the quote, the backslash, the newline and the
tab, and leaves every other character alone. `literal` is used in diagnostics: it also escapes every
character that would not be visible.
-/

namespace SlotScript.Text

/-- The characters between double quotes, each written by `escape`. -/
def between (escape : Char → List Char) (text : String) : String :=
  String.ofList ('"' :: text.toList.flatMap escape ++ ['"'])

/-- A character inside a quoted text. -/
def quoteChar (c : Char) : List Char :=
  match c with
  | '"' => ['\\', '"']
  | '\\' => ['\\', '\\']
  | '\n' => ['\\', 'n']
  | '\t' => ['\\', 't']
  | c => [c]

/-- The text as it stands inside a printed container. -/
def quote (text : String) : String := between quoteChar text

/-- A control character: the C0 and C1 sets and the delete character. -/
def isControl (c : Char) : Bool := c.toNat < 0x20 || (0x7F ≤ c.toNat && c.toNat ≤ 0x9F)

/-- A character inside a diagnostic literal. Blanks other than the space, and control characters, are
written by code point where they have no short escape. -/
def literalChar (c : Char) : List Char :=
  match c with
  | '"' => ['\\', '"']
  | '\\' => ['\\', '\\']
  | '\n' => ['\\', 'n']
  | '\r' => ['\\', 'r']
  | '\t' => ['\\', 't']
  | '\x00' => ['\\', '0']
  | ' ' => [' ']
  | c =>
    if isControl c || isBlank c then
      ['\\', 'u', '\x7b'] ++ Nat.toDigits 16 c.toNat ++ ['\x7d']
    else [c]

/-- The text as it stands in a diagnostic. -/
def literal (text : String) : String := between literalChar text

end SlotScript.Text
