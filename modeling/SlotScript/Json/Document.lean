import SlotScript.Json.Token

/-!
JSON documents.

A document is read token by token with a stack of the containers that are still open. The result
keeps of a number whether it is a natural number, which is all that a configuration asks for.
-/

namespace SlotScript

/-- A JSON document. -/
inductive Json where
  | scalar (s : Json.Scalar)
  | array (items : List Json)
  /-- The fields in order; a name is absent where its escapes do not denote characters. -/
  | object (fields : List (Option String × Json))

namespace Json

/-- A container that is still open, with what it holds so far, last first. -/
inductive Frame where
  | array (items : List Json)
  | object (fields : List (Option String × Json)) (name : Option String)

/-- What may come next. -/
inductive Expect where
  /-- A value, at the start of an array also its end. -/
  | value (orEnd : Bool)
  /-- The name of a field of an object with these fields, at its start also its end. -/
  | name (fields : List (Option String × Json)) (orEnd : Bool)
  /-- The colon after a name. -/
  | colon (fields : List (Option String × Json)) (name : Option String)
  /-- What follows a complete value. -/
  | after (value : Json)

/-- Reads the rest of a document inside the open containers. -/
def parse : List Frame → Expect → List Token → Option Json
  | frames, .value _, .scalar s :: tokens => parse frames (.after (.scalar s)) tokens
  | frames, .value _, .openArray :: tokens => parse (.array [] :: frames) (.value true) tokens
  | frames, .value _, .openObject :: tokens => parse frames (.name [] true) tokens
  | .array [] :: frames, .value true, .closeArray :: tokens =>
    parse frames (.after (.array [])) tokens
  | frames, .name fields _, .scalar (.string name) :: tokens =>
    parse frames (.colon fields name) tokens
  | frames, .name fields true, .closeObject :: tokens =>
    parse frames (.after (.object fields)) tokens
  | frames, .colon fields name, .colon :: tokens =>
    parse (.object fields name :: frames) (.value false) tokens
  | .array items :: frames, .after v, .comma :: tokens =>
    parse (.array (v :: items) :: frames) (.value false) tokens
  | .array items :: frames, .after v, .closeArray :: tokens =>
    parse frames (.after (.array (v :: items).reverse)) tokens
  | .object fields name :: frames, .after v, .comma :: tokens =>
    parse frames (.name ((name, v) :: fields) false) tokens
  | .object fields name :: frames, .after v, .closeObject :: tokens =>
    parse frames (.after (.object ((name, v) :: fields).reverse)) tokens
  | [], .after v, [] => some v
  | _, _, _ => none

/-- Reads a document. -/
def ofText? (text : String) : Option Json :=
  tokens? text.toList >>= parse [] (.value false)

/-! ### Reading a document as something else -/

/-- A natural number below `2 ^ 32`. -/
def toUInt32? : Json → Option UInt32
  | scalar (.natural n) => if n < UInt32.size then some (.ofNat n) else none
  | _ => none

def toBool? : Json → Option Bool
  | scalar (.boolean b) => some b
  | _ => none

/-- The fields of an object all of whose names are texts. -/
def toFields? : Json → Option (List (String × Json))
  | object fields => fields.mapM fun (name, value) => name.map (·, value)
  | _ => none

/-- A field that may be left out, but not given twice. -/
def field? {α : Type} (fields : List (String × Json)) (name : String) (default : α)
    (read? : Json → Option α) : Option α :=
  match fields.filter (·.1 = name) with
  | [] => some default
  | [(_, value)] => read? value
  | _ => none

end Json

end SlotScript
