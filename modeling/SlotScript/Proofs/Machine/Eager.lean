import SlotScript.Proofs.Machine.Bound

/-!
# Operators on names and literals

The machine evaluates `and` and `or` by need, and it looks into a slot only when the value is wanted. For
expressions that operators make of names and literals neither can be told from eager evaluation
(`Expr.eager?`), where both operands are evaluated first: what is skipped would succeed and change nothing
(`Machine.evalValue_eq_eager`).
-/

namespace SlotScript

namespace Expr

/-- Made of literals and of names with the property `P` by operators. -/
inductive Operates (P : String → Prop) : Expr → Prop where
  | literal (value : Value) : Operates P (.literal value)
  | name {name : String} (hname : P name) : Operates P (.name name)
  | unary {op : UnaryOp} {operand : Expr} (hoperand : Operates P operand) : Operates P (.unary op operand)
  | binary {op : BinaryOp} {left right : Expr} (hleft : Operates P left) (hright : Operates P right) :
      Operates P (.binary op left right)
  | and {left right : Expr} (hleft : Operates P left) (hright : Operates P right) : Operates P (.and left right)
  | or {left right : Expr} (hleft : Operates P left) (hright : Operates P right) : Operates P (.or left right)

/-- The value of an expression that operators make, from the values of all operands. -/
def eager? (read : String → Option Value) : Expr → Option Value
  | literal value => some value
  | .name x => read x
  | unary op operand => return op.apply (← operand.eager? read)
  | binary op left right => return op.apply (← left.eager? read) (← right.eager? read)
  | and left right => return (← left.eager? read).and (← right.eager? read)
  | or left right => return (← left.eager? read).or (← right.eager? read)
  | _ => none

end Expr

namespace Machine

variable {m : Machine}

/-- What a name stands for: a constant, or the value of its binding. -/
def read? (m : Machine) (name : String) : Option Value :=
  match constant? name with
  | some value => some value
  | none => (resultOf (MachineM.valueOf name) m).toOption

/-- The name is a constant or bound. -/
def Knows (m : Machine) (name : String) : Prop :=
  (constant? name).isSome ∨ (m.bindings.get? name).isSome

/-- A name that is no constant stands for what is in its slot. -/
theorem Anchored.read?_eq (h : m.Anchored) {name : String} (hname : m.Knows name)
    (hconstant : constant? name = none) :
    ∃ slot v, m.bindings.get? name = some slot ∧ m.arena.value slot = .ok v ∧ m.read? name = some v := by
  have hbound : (m.bindings.get? name).isSome := hname.resolve_left (by rw [hconstant]; exact Bool.false_ne_true)
  obtain ⟨slot, hslot⟩ := Option.isSome_iff_exists.mp hbound
  obtain ⟨s, hs⟩ := Arena.get?_of_isLive (h.binding slot (NameTable.mem_slots_of_get? hslot))
  have hvalue := Arena.value_eq_ok hs
  refine ⟨slot, s.value, hslot, hvalue, ?_⟩
  rw [read?, hconstant]
  dsimp only
  rw [resultOf, MachineM.valueOf_eq_ok hslot hvalue]
  rfl

theorem holding_holding (m : Machine) (held more : List Reference) :
    (m.holding held).holding more = m.holding (more ++ held) := by
  simp only [holding, List.append_assoc]

/-- What is held more is released again. -/
theorem release_holding (m : Machine) (held : List Reference) :
    (m.holding held).release m.temporaries.length = m := by
  simp [holding, release]

end Machine

namespace MachineM

open Machine (Anchored)

variable {m : Machine}

theorem evalValue_eq_ok {e : Expr} {m' : Machine} {o : Outcome} {v : Value} (he : eval e m = .ok o m')
    (ho : m'.arena.resolve o = .ok v) : evalValue e m = .ok v m' :=
  (bind_eq_of_ok he).trans (reading_eq_ok ho)

/-- An operation that only holds more leaves, once released, what it found. -/
theorem releasing_eq_self {α : Type} {act : MachineM α} {x : α} (held : List Reference)
    (h : act m = .ok x (m.holding held)) : releasing act m = .ok x m := by
  rw [releasing_eq_ok h, m.release_holding]

/-- The truth of the left operand chooses how to go on. -/
theorem choosing_eq_ok {left : Expr} {o o' : Outcome} {v : Value} {act act' : Outcome → MachineM Outcome}
    (heval : eval left m = .ok o m) (hvalue : m.arena.resolve o = .ok v)
    (h : (if v.toBoolean then act o else act' o) m = .ok o' m) :
    releasing (do
      let outcome ← eval left
      if (← resolve outcome).toBoolean then act outcome else act' outcome) m = .ok o' m := by
  have hresolve : resolve o m = .ok v m := reading_eq_ok hvalue
  exact releasing_eq_self [] ((bind_eq_of_ok heval).trans ((bind_eq_of_ok hresolve).trans h))

/-- Evaluation succeeds, changes nothing and leads to the eager value. The induction is over what is held
too, as the right operand is evaluated while the left one is held. -/
theorem eval_eq_eager (h : m.Anchored) {e : Expr} (he : e.Operates m.Knows) (held : List Reference) :
    ∃ o v, eval e (m.holding held) = .ok o (m.holding held) ∧ m.arena.resolve o = .ok v ∧
      e.eager? m.read? = some v := by
  induction he generalizing held with
  | literal value =>
    rw [eval_literal]
    exact ⟨.fresh value, value, releasing_eq_self [] rfl, rfl, by rw [Expr.eager?]⟩
  | @name name hname =>
    rw [eval]
    cases hconstant : constant? name with
    | some value =>
      refine ⟨.fresh value, value, releasing_eq_self [] rfl, rfl, ?_⟩
      rw [Expr.eager?, Machine.read?]
      simp only [hconstant]
    | none =>
      obtain ⟨slot, v, hslot, hvalue, hread⟩ := h.read?_eq hname hconstant
      have hlookup : lookup name (m.holding held) = .ok slot (m.holding held) := lookup_eq_ok hslot
      refine ⟨.aliased slot, v, releasing_eq_self [] (bind_eq_of_ok hlookup), hvalue, ?_⟩
      rw [Expr.eager?, hread]
  | @unary op operand _ ih =>
    obtain ⟨o, v, heval, hvalue, heager⟩ := ih held
    have hoperand := evalValue_eq_ok heval hvalue
    rw [eval]
    refine ⟨.fresh (op.apply v), op.apply v, releasing_eq_self [] (bind_eq_of_ok hoperand), rfl, ?_⟩
    rw [Expr.eager?, heager]
    rfl
  | @binary op left right _ _ ihleft ihright =>
    obtain ⟨o, v, heval, hvalue, heager⟩ := ihleft held
    obtain ⟨o', w, heval', hvalue', heager'⟩ := ihright (v.held ++ held)
    rw [← m.holding_holding] at heval'
    have hleft := evalValue_eq_ok heval hvalue
    have hhold : holdValue v (m.holding held) = .ok () ((m.holding held).holding v.held) := by
      rw [holdValue_eq]
      rfl
    have hright := evalValue_eq_ok heval' hvalue'
    rw [eval]
    refine ⟨.fresh (op.apply v w), op.apply v w, releasing_eq_self v.held ?_, rfl, ?_⟩
    · exact (bind_eq_of_ok hleft).trans ((bind_eq_of_ok hhold).trans (bind_eq_of_ok hright))
    · rw [Expr.eager?, heager, heager']
      rfl
  | @and left right _ _ ihleft ihright =>
    obtain ⟨o, v, heval, hvalue, heager⟩ := ihleft held
    obtain ⟨o', w, heval', hvalue', heager'⟩ := ihright held
    have hand : (Expr.and left right).eager? m.read? = some (v.and w) := by
      rw [Expr.eager?, heager, heager']
      rfl
    rw [eval, hand, Value.and]
    cases htruth : v.toBoolean with
    | true => exact ⟨o', w, choosing_eq_ok heval hvalue (by rw [htruth]; exact heval'), hvalue', rfl⟩
    | false => exact ⟨o, v, choosing_eq_ok heval hvalue (by rw [htruth]; rfl), hvalue, rfl⟩
  | @or left right _ _ ihleft ihright =>
    obtain ⟨o, v, heval, hvalue, heager⟩ := ihleft held
    obtain ⟨o', w, heval', hvalue', heager'⟩ := ihright held
    have hor : (Expr.or left right).eager? m.read? = some (v.or w) := by
      rw [Expr.eager?, heager, heager']
      rfl
    rw [eval, hor, Value.or]
    cases htruth : v.toBoolean with
    | true => exact ⟨o, v, choosing_eq_ok heval hvalue (by rw [htruth]; rfl), hvalue, rfl⟩
    | false => exact ⟨o', w, choosing_eq_ok heval hvalue (by rw [htruth]; exact heval'), hvalue', rfl⟩

end MachineM

namespace Machine

open MachineM

/-- **Evaluation by need gives the eager value**, after any calls and for every expression that operators make
of literals and of names that are constants or bound. It always succeeds, and the machine stays as it is. -/
theorem evalValue_eq_eager (config : MachineConfig) (calls : List HostCall) {e : Expr} :
    let m := (new config).after calls
    e.Operates m.Knows → ∃ v, e.eager? m.read? = some v ∧ evalValue e m = .ok v m := by
  intro m he
  obtain ⟨o, v, heval, hvalue, heager⟩ := eval_eq_eager (anchored_after config calls) he []
  exact ⟨v, heager, evalValue_eq_ok heval hvalue⟩

/-- The left operand of the sum is passed on by `or`, a name for an array; the right one is skipped. -/
theorem evalValue_eq_eager_skipping :
    let calls : List HostCall :=
      [.declare "a" (some (.array [.literal (.number .zero)])), .declare "b" none, .removeBinding "c"]
    let m := (new {}).after calls
    let e : Expr := .binary .add (.or (.name "a") (.unary .neg (.name "b"))) (.and (.name "NaN") (.name "a"))
    e.Operates m.Knows ∧ ∃ v, e.eager? m.read? = some v ∧ evalValue e m = .ok v m := by
  intro calls m e
  have ha : m.Knows "a" := .inr (by decide +kernel)
  have hb : m.Knows "b" := .inr (by decide +kernel)
  have hnan : m.Knows "NaN" := .inl (by decide)
  have he : e.Operates m.Knows :=
    .binary (.or (.name ha) (.unary (.name hb))) (.and (.name hnan) (.name ha))
  exact ⟨he, evalValue_eq_eager {} calls he⟩

end Machine

end SlotScript
