import SlotScript.Numeral.Print
import SlotScript.Numeral.Read
import SlotScript.Slot
import SlotScript.Text.Quoted

/-!
Values and their conversions.

A primitive value stands for itself. A compound value is a handle: it names the slot that owns the
object, array or function, so two handles are equal when they name the same slot.
-/

namespace SlotScript

/-- What a compound value refers to. -/
inductive Shape where
  | object
  | array
  | function
deriving DecidableEq

/-- The kind of a value. -/
inductive Kind where
  | undefined
  | null
  | boolean
  | number
  | text
  | compound (shape : Shape)
deriving DecidableEq

/-- The number under which a kind is known to clients. -/
def Kind.code : Kind → Nat
  | undefined => 0
  | null => 1
  | boolean => 2
  | number => 3
  | text => 4
  | compound .object => 5
  | compound .array => 6
  | compound .function => 7

/-- The name of a kind in the language. -/
def Kind.name : Kind → String
  | undefined => "undefined"
  | null => "null"
  | boolean => "boolean"
  | number => "number"
  | text => "string"
  | compound .object => "object"
  | compound .array => "array"
  | compound .function => "function"

/-- A value. -/
inductive Value where
  | undefined
  | null
  | boolean (b : Bool)
  | number (n : Double)
  | text (s : String)
  /-- A handle to what `owner` holds. -/
  | compound (shape : Shape) (owner : SlotId)
deriving DecidableEq

instance : Inhabited Value := ⟨.undefined⟩

namespace Value

def kind : Value → Kind
  | undefined => .undefined
  | null => .null
  | boolean _ => .boolean
  | number _ => .number
  | text _ => .text
  | compound shape _ => .compound shape

/-- Whether the value is `undefined` or `null`. -/
def isNullish : Value → Bool
  | undefined | null => true
  | _ => false

/-- Whether the value is a text. -/
def isText : Value → Bool
  | text _ => true
  | _ => false

/-- Whether the value is a handle. -/
def isCompound : Value → Bool
  | compound _ _ => true
  | _ => false

/-- The slot that a compound value refers to. -/
def handle? : Value → Option SlotId
  | compound _ owner => some owner
  | _ => none

/-- The number in a number value. -/
def number? : Value → Option Double
  | number n => some n
  | _ => none

/-- The text in a text value. -/
def text? : Value → Option String
  | text s => some s
  | _ => none

/-! ### Conversions -/

/-- The numeric conversion. -/
def toNumber : Value → Double
  | undefined | compound _ _ => .nan
  | null => .zero
  | boolean b => .ofNat b.toNat
  | number n => n
  | text s => .ofText s

/-- The truth of a value: only `undefined`, `null`, `false`, zero, not-a-number and the empty text
are false. -/
def toBoolean : Value → Bool
  | undefined | null => false
  | boolean b => b
  | number n => n ≠ .nan && !n.isZero
  | text s => s ≠ ""
  | compound _ _ => true

/-- The text conversion. -/
def toText : Value → String
  | undefined => "undefined"
  | null => "null"
  | boolean true => "true"
  | boolean false => "false"
  | number n => n.toText
  | text s => s
  | compound .object _ => "[object Object]"
  | compound .array _ => "[object Array]"
  | compound .function _ => "[object Function]"

/-- The value in a diagnostic. -/
def diagnostic : Value → String
  | undefined => "Undefined"
  | null => "Null"
  | boolean b => "Boolean(" ++ (boolean b).toText ++ ")"
  | number n => "Number(" ++ n.toText ++ ")"
  | text s => "Text(" ++ Text.literal s ++ ")"
  | compound .object owner => "Object(" ++ owner.diagnostic ++ ")"
  | compound .array owner => "Array(" ++ owner.diagnostic ++ ")"
  | compound .function owner => "Function(" ++ owner.diagnostic ++ ")"

end Value

end SlotScript
