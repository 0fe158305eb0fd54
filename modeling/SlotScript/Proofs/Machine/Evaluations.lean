import SlotScript.Proofs.Machine.Stepwise

/-!
# The evaluations that an evaluation makes

`MachineM.operands e m` lists the operands that evaluating `e` on `m` gets to, each with the machine that
it is evaluated on. An operand that `and` or `or` skip is not in the list, and neither is one that comes
after a failure. `MachineM.evaluations e m` goes on with the operands of the operands, so it has an
entry for each node of the expression that is evaluated; `HostCall.evaluations` does the same for a call.
-/

namespace SlotScript

namespace MachineM

/-- Operands evaluated in turn, as long as `step` succeeds: it evaluates an operand and does with the
outcome what is done before the next. -/
def inTurn (step : Expr → MachineM PUnit) : List Expr → Machine → List (Expr × Machine)
  | [], _ => []
  | e :: rest, m => (e, m) :: match step e m with
    | .ok _ m' => inTurn step rest m'
    | .error _ _ => []

/-- An operand that is evaluated after `before` if that allows it. -/
def inCase (before : MachineM Bool) (e : Expr) (m : Machine) : List (Expr × Machine) :=
  match before m with
  | .ok true m' => [(e, m')]
  | _ => []

/-- Evaluates an operand of which the value is needed later. -/
def keepingValue (e : Expr) : MachineM PUnit := eval e >>= resolve >>= holdValue

/-- Evaluates an operand of which the outcome is needed later. -/
def keeping (e : Expr) : MachineM PUnit := eval e >>= hold

/-- Evaluates an operand for its effects. -/
def discarding (e : Expr) : MachineM PUnit := do
  let _ ← eval e

/-- Whether an operand is true. -/
def truth (e : Expr) : MachineM Bool := Value.toBoolean <$> evalValue e

/-- The operands that evaluating an expression gets to. -/
def operands : Expr → Machine → List (Expr × Machine)
  | .literal _, _ | .name _, _ | .function _ _, _ => []
  | .member base _, m => [(base, m)]
  | .index base key, m => inTurn keepingValue [base, key] m
  | .object members, m => inTurn keeping (members.map (·.2)) m
  | .array elements, m => inTurn keeping elements m
  | .unary _ operand, m => [(operand, m)]
  | .binary _ left right, m => inTurn keepingValue [left, right] m
  | .and left right, m => (left, m) :: inCase (truth left) right m
  | .or left right, m => (left, m) :: inCase (not <$> truth left) right m
  | .call callee arguments, m =>
    if (Intrinsic.ofName? callee).isSome then inTurn discarding arguments m else []

theorem mem_of_mem_inTurn {step : Expr → MachineM PUnit} {es : List Expr} {m : Machine}
    {p : Expr × Machine} (h : p ∈ inTurn step es m) : p.1 ∈ es := by
  induction es generalizing m with
  | nil => cases h
  | cons e rest ih =>
    unfold inTurn at h
    rcases List.mem_cons.mp h with rfl | h
    · exact List.mem_cons_self
    · cases hstep : step e m with
      | ok x m' => rw [hstep] at h; exact List.mem_cons_of_mem _ (ih h)
      | error err m' => rw [hstep] at h; cases h

theorem eq_of_mem_inCase {before : MachineM Bool} {e : Expr} {m : Machine} {p : Expr × Machine}
    (h : p ∈ inCase before e m) : p.1 = e := by
  unfold inCase at h
  split at h
  · rw [List.mem_singleton.mp h]
  · cases h

theorem sizeOf_lt_of_mem_operands {e : Expr} {m : Machine} {p : Expr × Machine}
    (h : p ∈ operands e m) : sizeOf p.1 < sizeOf e := by
  cases e with
  | literal value => cases h
  | name name => cases h
  | function parameters code => cases h
  | member base property =>
    obtain rfl := List.mem_singleton.mp h
    simp only [Expr.member.sizeOf_spec]
    omega
  | unary op operand =>
    obtain rfl := List.mem_singleton.mp h
    simp only [Expr.unary.sizeOf_spec]
    omega
  | index base key =>
    have hmem := mem_of_mem_inTurn h
    simp only [List.mem_cons, List.not_mem_nil, or_false] at hmem
    rw [Expr.index.sizeOf_spec]
    rcases hmem with heq | heq <;> rw [heq] <;> omega
  | binary op left right =>
    have hmem := mem_of_mem_inTurn h
    simp only [List.mem_cons, List.not_mem_nil, or_false] at hmem
    rw [Expr.binary.sizeOf_spec]
    rcases hmem with heq | heq <;> rw [heq] <;> omega
  | object members =>
    obtain ⟨member, hmember, heq⟩ := List.mem_map.mp (mem_of_mem_inTurn h)
    have hlt := List.sizeOf_lt_of_mem hmember
    obtain ⟨name, e⟩ := member
    rw [Prod.mk.sizeOf_spec] at hlt
    rw [← heq, Expr.object.sizeOf_spec]
    simp only at hlt ⊢
    omega
  | array elements =>
    have hlt := List.sizeOf_lt_of_mem (mem_of_mem_inTurn h)
    rw [Expr.array.sizeOf_spec]
    omega
  | and left right =>
    rw [Expr.and.sizeOf_spec]
    rcases List.mem_cons.mp h with rfl | h
    · simp only; omega
    · rw [eq_of_mem_inCase h]; omega
  | or left right =>
    rw [Expr.or.sizeOf_spec]
    rcases List.mem_cons.mp h with rfl | h
    · simp only; omega
    · rw [eq_of_mem_inCase h]; omega
  | call callee arguments =>
    rw [operands] at h
    split at h
    · have hlt := List.sizeOf_lt_of_mem (mem_of_mem_inTurn h)
      rw [Expr.call.sizeOf_spec]
      omega
    · cases h

/-- The evaluations that evaluating an expression makes: its own, and those of its operands. -/
def evaluations (e : Expr) (m : Machine) : List (Expr × Machine) :=
  (e, m) :: (operands e m).attach.flatMap fun p => evaluations p.1.1 p.1.2
termination_by sizeOf e
decreasing_by exact sizeOf_lt_of_mem_operands p.2

theorem evaluations_eq (e : Expr) (m : Machine) :
    evaluations e m = (e, m) :: (operands e m).flatMap fun p => evaluations p.1 p.2 := by
  rw [evaluations, List.flatMap_subtype (g := fun p => evaluations p.1 p.2) fun _ _ => rfl,
    List.unattach_attach]

/-- What an assignment to a property writes to: the value of `base`, and the name that `property`
gives. -/
def locate (base : Expr) (property : MachineM String) : MachineM (Value × String) := do
  let base ← evalValue base
  holdValue base
  let property ← property
  checkBase base property
  return (base, property)

theorem assignProperty_eq (base value : Expr) (property : MachineM String) :
    assignProperty base property value = (do
      let place ← locate base property
      let outcome ← eval value
      onArena (.setProperty place.1 place.2 outcome)) := by
  simp only [assignProperty, locate, bind_assoc, pure_bind]

end MachineM

open MachineM in
/-- The expressions that a call gets to, each with the machine that it is evaluated on. -/
def HostCall.operands : HostCall → Machine → List (Expr × Machine)
  | .declare _ (some e), m | .eval e, m | .evalValue e, m => [(e, m)]
  | .assign (.name name) value, m => inCase ((fun _ => true) <$> lookup name) value m
  | .assign (.member base property) value, m =>
    (base, m) :: inCase ((fun _ => true) <$> locate base (return property)) value m
  | .assign (.index base key) value, m =>
    inTurn keepingValue [base, key] m ++
      inCase ((fun _ => true) <$> locate base (Value.toText <$> MachineM.evalValue key)) value m
  | _, _ => []

/-- The evaluations that a call makes. -/
def HostCall.evaluations (call : HostCall) (m : Machine) : List (Expr × Machine) :=
  (call.operands m).flatMap fun p => MachineM.evaluations p.1 p.2

end SlotScript
