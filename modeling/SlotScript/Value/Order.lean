import SlotScript.Value.Basic

/-!
The order of values: texts by their characters, everything else that has an order by number.
-/

namespace SlotScript.Value

/-- What a value is ordered by. -/
inductive Rank where
  | number (n : Double)
  | text (s : String)
deriving DecidableEq

/-- The numeric value of a rank. -/
def Rank.toNumber : Rank → Double
  | number n => n
  | text s => .ofText s

/-- The rank of a value; `undefined` and compound values have none. -/
def rank? : Value → Option Rank
  | undefined | compound _ _ => none
  | text s => some (.text s)
  | null => some (.number null.toNumber)
  | boolean b => some (.number (boolean b).toNumber)
  | number n => some (.number n)

/-- The order of two ranks: two texts by code points, otherwise by number. -/
def Rank.compare? : Rank → Rank → Option Ordering
  | text s, text t => some (compare s t)
  | a, b => a.toNumber.compare? b.toNumber

/-- The order of two values, or `none` where they are incomparable. -/
def compare? (a b : Value) : Option Ordering := do
  (← a.rank?).compare? (← b.rank?)

def lt (a b : Value) : Bool := a.compare? b = some .lt

def gt (a b : Value) : Bool := a.compare? b = some .gt

def le (a b : Value) : Bool := a.lt b || a.compare? b = some .eq

def ge (a b : Value) : Bool := a.gt b || a.compare? b = some .eq

end SlotScript.Value
