import SlotScript.Text.Quoted
import Mathlib.Data.List.Induction

/-!
# Quoted texts delimit themselves

A character of a quoted text stands for itself or is one of the four that follow a backslash, and neither way
begins with a quote (`Text.quoteChar_cases`). A reader that goes from one to the next therefore finds the text and
the end of its quotation, whatever follows (`Text.unquote?_quote`). Seen without the reader, the end is the first
quote after the opening one that is not escaped (`Text.isEscaped_of_flatMap_eq`).
-/

namespace SlotScript

namespace Text

/-! ### Reading a quoted text -/

/-- The character that is meant by one after a backslash. -/
def unescape (c : Char) : Char :=
  match c with
  | 'n' => '\n'
  | 't' => '\t'
  | c => c

/-- The characters up to the closing quote, and what follows it. -/
def upToQuote? : List Char → Option (List Char × List Char)
  | [] => none
  | '"' :: rest => some ([], rest)
  | '\\' :: c :: rest => (upToQuote? rest).map (Prod.map (unescape c :: ·) id)
  | c :: rest => (upToQuote? rest).map (Prod.map (c :: ·) id)

/-- A quoted text at the beginning, and what follows it. -/
def unquote? (quoted : String) : Option (String × String) :=
  match quoted.toList with
  | '"' :: rest => (upToQuote? rest).map (Prod.map String.ofList String.ofList)
  | _ => none

/-- A character is written as it is, unless it is a quote or a backslash, or after a backslash. -/
theorem quoteChar_cases (c : Char) :
    (∃ e, quoteChar c = ['\\', e] ∧ unescape e = c) ∨ (quoteChar c = [c] ∧ c ≠ '"' ∧ c ≠ '\\') := by
  unfold quoteChar
  split
  · exact .inl ⟨_, rfl, rfl⟩
  · exact .inl ⟨_, rfl, rfl⟩
  · exact .inl ⟨_, rfl, rfl⟩
  · exact .inl ⟨_, rfl, rfl⟩
  · next hquote hbackslash _ _ => exact .inr ⟨rfl, hquote, hbackslash⟩

theorem upToQuote?_quoteChar (c : Char) (rest : List Char) :
    upToQuote? (quoteChar c ++ rest) = (upToQuote? rest).map (Prod.map (c :: ·) id) := by
  rcases quoteChar_cases c with ⟨e, hcode, rfl⟩ | ⟨hcode, hquote, hbackslash⟩
  · rw [hcode]
    rfl
  · rw [hcode, List.singleton_append, upToQuote?]
    · exact fun heq => hquote heq
    · exact fun _ _ heq _ => hbackslash heq

theorem upToQuote?_flatMap (cs rest : List Char) :
    upToQuote? (cs.flatMap quoteChar ++ '"' :: rest) = some (cs, rest) := by
  induction cs with
  | nil => rfl
  | cons c cs ih =>
    rw [List.flatMap_cons, List.append_assoc, upToQuote?_quoteChar, ih]
    rfl

theorem toList_quote (text : String) :
    (quote text).toList = '"' :: (text.toList.flatMap quoteChar ++ ['"']) := by
  rw [quote, between, String.toList_ofList]
  rfl

/-- What was quoted is read back, whatever follows it. -/
theorem unquote?_quote (text rest : String) : unquote? (quote text ++ rest) = some (text, rest) := by
  have hlist : (quote text ++ rest).toList = '"' :: (text.toList.flatMap quoteChar ++ '"' :: rest.toList) := by
    rw [String.toList_append, toList_quote, List.cons_append, List.append_assoc, List.singleton_append]
  rw [unquote?, hlist]
  show (upToQuote? (text.toList.flatMap quoteChar ++ '"' :: rest.toList)).map _ = _
  rw [upToQuote?_flatMap, Option.map_some, Prod.map_apply, String.ofList_toList, String.ofList_toList]

/-! ### Escaped characters -/

/-- Whether a character is escaped by those before it, from the last one on: they end in a backslash that is not
escaped itself. -/
def escapesNext : List Char → Bool
  | '\\' :: before => !escapesNext before
  | _ => false

/-- Whether a character after these is escaped. -/
def isEscaped (before : List Char) : Bool := escapesNext before.reverse

theorem isEscaped_concat (before : List Char) (c : Char) :
    isEscaped (before ++ [c]) = (c == '\\' && !isEscaped before) := by
  rw [isEscaped, List.reverse_concat]
  by_cases h : c = '\\'
  · subst h
    rfl
  · rw [escapesNext, beq_eq_false_iff_ne.mpr h, Bool.false_and]
    exact fun _ heq => absurd (List.cons.inj heq).1 h

/-- No character is escaped by those before it. -/
theorem isEscaped_flatMap (cs : List Char) : isEscaped (cs.flatMap quoteChar) = false := by
  induction cs using List.reverseRecOn with
  | nil => rfl
  | append_singleton cs c ih =>
    rw [List.flatMap_append, List.flatMap_singleton]
    rcases quoteChar_cases c with ⟨e, hcode, -⟩ | ⟨hcode, -, hbackslash⟩
    · rw [hcode, List.append_cons, isEscaped_concat, isEscaped_concat, ih]
      exact Bool.and_false _
    · rw [hcode, isEscaped_concat, beq_eq_false_iff_ne.mpr hbackslash, Bool.false_and]

/-- A quote is written after a backslash only. -/
theorem quoteChar_eq_append_quote {c : Char} {before after : List Char}
    (h : quoteChar c = before ++ '"' :: after) : before = ['\\'] ∧ after = [] := by
  have hlast {e : Char} {front : List Char} (hcode : [e] = front ++ '"' :: after) :
      front = [] ∧ e = '"' ∧ after = [] := by
    rcases List.append_eq_singleton_iff.mp hcode.symm with ⟨hfront, hrest⟩ | ⟨-, hrest⟩
    · obtain ⟨hquote, hafter⟩ := List.cons.inj hrest
      exact ⟨hfront, hquote.symm, hafter⟩
    · cases hrest
  rcases quoteChar_cases c with ⟨e, hcode, -⟩ | ⟨hcode, hquote, -⟩
  · rw [hcode] at h
    cases before with
    | nil => cases h
    | cons first front =>
      obtain ⟨rfl, htail⟩ := List.cons.inj h
      obtain ⟨rfl, -, hafter⟩ := hlast htail
      exact ⟨rfl, hafter⟩
  · rw [hcode] at h
    exact absurd (hlast h).2.1 hquote

/-- Among the codes of characters each quote is escaped. -/
theorem isEscaped_of_flatMap_eq {cs before after : List Char}
    (h : cs.flatMap quoteChar = before ++ '"' :: after) : isEscaped before := by
  induction cs using List.reverseRecOn generalizing after with
  | nil => exact absurd h.symm (List.append_ne_nil_of_right_ne_nil _ (List.cons_ne_nil _ _))
  | append_singleton cs c ih =>
    rw [List.flatMap_append, List.flatMap_singleton] at h
    rcases List.append_eq_append_iff.mp h with ⟨code, rfl, hcode⟩ | ⟨more, hmore, hrest⟩
    · -- The quote belongs to the last character.
      obtain ⟨rfl, -⟩ := quoteChar_eq_append_quote hcode
      rw [isEscaped_concat, isEscaped_flatMap]
      rfl
    · cases more with
      | nil =>
        -- The code of the last character does not begin with a quote.
        have hcode : quoteChar c = [] ++ '"' :: after := hrest.symm
        cases (quoteChar_eq_append_quote hcode).1
      | cons first more =>
        obtain ⟨rfl, -⟩ := List.cons.inj hrest
        exact ih hmore

/-- **Quoted texts delimit themselves.** What was quoted can be read back whatever follows it, so two quoted texts
with what follows them are equal only if the texts are and what follows is. A quoted text ends at its first quote
that is not escaped. -/
theorem quote_delimited :
    (∀ text rest, unquote? (quote text ++ rest) = some (text, rest)) ∧
      (∀ a b x y, quote a ++ x = quote b ++ y → a = b ∧ x = y) ∧
      Function.Injective quote ∧
      ∀ text, ∃ inside, (quote text).toList = '"' :: (inside ++ ['"']) ∧ isEscaped inside = false ∧
        ∀ before after, inside = before ++ '"' :: after → isEscaped before := by
  have happend (a b x y : String) (h : quote a ++ x = quote b ++ y) : a = b ∧ x = y := by
    have hread : some (a, x) = some (b, y) := by
      rw [← unquote?_quote a x, ← unquote?_quote b y, h]
    exact Prod.mk.inj (Option.some.inj hread)
  refine ⟨unquote?_quote, happend, fun a b h => (happend a b "" "" (by rw [h])).1, fun text => ?_⟩
  exact ⟨text.toList.flatMap quoteChar, toList_quote text, isEscaped_flatMap _,
    fun before after h => isEscaped_of_flatMap_eq h⟩

/-- A backslash and a quote, before a comma. -/
theorem quote_delimited_backslash :
    let a := "\\\""
    let b := String.ofList ['\\', '"']
    (quote a ++ "," = quote b ++ "," ∧ a = b) ∧
      ∃ inside before after, (quote a).toList = '"' :: (inside ++ ['"']) ∧ inside = before ++ '"' :: after ∧
        before.length = 3 ∧ isEscaped before := by
  intro a b
  obtain ⟨-, happend, -, hinside⟩ := quote_delimited
  have hsame : quote a ++ "," = quote b ++ "," := by decide
  obtain ⟨inside, hquote, -, hescaped⟩ := hinside a
  have hlist : (quote a).toList = '"' :: (['\\', '\\', '\\', '"'] ++ ['"']) := by decide
  have hcodes : inside = ['\\', '\\', '\\'] ++ '"' :: [] :=
    List.append_cancel_right (List.cons.inj (hquote.symm.trans hlist)).2
  exact ⟨⟨hsame, (happend a b "," "," hsame).1⟩, inside, _, _, hquote, hcodes, rfl, hescaped _ _ hcodes⟩

end Text

end SlotScript
