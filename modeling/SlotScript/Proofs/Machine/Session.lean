import SlotScript.Proofs.Ends

/-!
# Plain expressions and sessions

A literal can hold any value, also a handle that the program could not have come by. `Expr.Plain` are
the expressions whose literals are primitive, as a program text has them.

A session is what a host does with a machine: `HostCall` lists the calls, and `Machine.session` runs
them in turn, going on after a failure.
-/

namespace SlotScript

/-- All literals in the expression are primitive values. -/
inductive Expr.Plain : Expr → Prop where
  | literal {value} : value.handle? = none → Plain (.literal value)
  | name (name) : Plain (.name name)
  | member {base property} : Plain base → Plain (.member base property)
  | index {base key} : Plain base → Plain key → Plain (.index base key)
  | object {members} : (∀ member ∈ members, Plain member.2) → Plain (.object members)
  | array {elements} : (∀ element ∈ elements, Plain element) → Plain (.array elements)
  | function (parameters code) : Plain (.function parameters code)
  | unary {op operand} : Plain operand → Plain (.unary op operand)
  | binary {op left right} : Plain left → Plain right → Plain (.binary op left right)
  | and {left right} : Plain left → Plain right → Plain (.and left right)
  | or {left right} : Plain left → Plain right → Plain (.or left right)
  | call {callee arguments} : (∀ argument ∈ arguments, Plain argument) →
      Plain (.call callee arguments)

/-- A call of the host. -/
inductive HostCall where
  | declare (name : String) (initial : Option Expr)
  | assign (target value : Expr)
  | eval (e : Expr)
  | evalValue (e : Expr)
  | removeBinding (name : String)
  | collect

/-- What a call that succeeds returns. -/
inductive Reply where
  | declared (slot : SlotId)
  | assigned
  | outcome (outcome : Outcome)
  | value (value : Value)
  | removed (slot : Option SlotId)
  | collected (report : CollectionReport)

namespace HostCall

/-- Runs a call. -/
def perform : HostCall → MachineM Reply
  | .declare name initial => .declared <$> MachineM.declare name initial
  | .assign target value => (fun _ => .assigned) <$> MachineM.assign target value
  | .eval e => .outcome <$> MachineM.eval e
  | .evalValue e => .value <$> MachineM.evalValue e
  | .removeBinding name => .removed <$> modifyGet (·.removeBinding name)
  | .collect => .collected <$> modifyGet Machine.collect

/-- All literals in the expressions of the call are primitive values. -/
def Plain : HostCall → Prop
  | .declare _ initial => ∀ e ∈ initial, e.Plain
  | .assign target value => target.Plain ∧ value.Plain
  | .eval e => e.Plain
  | .evalValue e => e.Plain
  | .removeBinding _ => True
  | .collect => True

end HostCall

/-- The results of some calls, each with the machine after it. -/
def Machine.session (m : Machine) : List HostCall → List (Except MachineError Reply × Machine)
  | [] => []
  | call :: calls =>
    match call.perform m with
    | .ok reply m' => (.ok reply, m') :: m'.session calls
    | .error e m' => (.error e, m') :: m'.session calls

theorem Machine.session_cons (m : Machine) (call : HostCall) (calls : List HostCall) :
    m.session (call :: calls) = (resultOf call.perform m, stateAfter call.perform m) ::
      (stateAfter call.perform m).session calls := by
  rw [session, resultOf, stateAfter]
  cases call.perform m <;> rfl

/-- What holds of a machine and is kept by each call of a session, with what each call then returns,
holds throughout the session. -/
theorem Machine.session_induction {P : Machine → Prop} {Q : HostCall → Prop}
    {ok : Reply → Machine → Prop} {error : MachineError → Machine → Prop}
    (hstep : ∀ call m, Q call → P m →
      Ends call.perform m (fun reply m' => P m' ∧ ok reply m') (fun e m' => P m' ∧ error e m'))
    {m : Machine} (h : P m) {calls : List HostCall} (hcalls : ∀ call ∈ calls, Q call) :
    ∀ step ∈ m.session calls, P step.2 ∧
      match step.1 with
      | .ok reply => ok reply step.2
      | .error e => error e step.2 := by
  induction calls generalizing m with
  | nil => intro step hmem; cases hmem
  | cons call calls ih =>
    intro step hmem
    have hends := hstep call m (hcalls call List.mem_cons_self) h
    have hrest := fun c hc => hcalls c (List.mem_cons_of_mem _ hc)
    unfold Ends at hends
    unfold session at hmem
    cases hact : call.perform m with
    | ok reply m' =>
      rw [hact] at hends hmem
      rcases List.mem_cons.mp hmem with rfl | hmem
      · exact hends
      · exact ih hends.1 hrest step hmem
    | error e m' =>
      rw [hact] at hends hmem
      rcases List.mem_cons.mp hmem with rfl | hmem
      · exact hends
      · exact ih hends.1 hrest step hmem

/-- The machine after some calls. -/
def Machine.after (m : Machine) (calls : List HostCall) : Machine :=
  calls.foldl (fun m call => stateAfter call.perform m) m

/-- What holds of a machine and is kept by each call holds after any calls. -/
theorem Machine.after_induction {P : Machine → Prop} {Q : HostCall → Prop}
    (hstep : ∀ {call m}, Q call → P m → P (stateAfter call.perform m)) {m : Machine} (h : P m)
    {calls : List HostCall} (hcalls : ∀ call ∈ calls, Q call) : P (m.after calls) := by
  induction calls generalizing m with
  | nil => exact h
  | cons call calls ih =>
    obtain ⟨hcall, hrest⟩ := List.forall_mem_cons.mp hcalls
    exact ih (hstep hcall h) hrest

end SlotScript
