import SlotScript.Proofs.Arena.Accounting
import SlotScript.Proofs.Machine.Session

/-!
# What every step does, a call does

`MachineM.Evaluating P`: the property `P` of operations holds of the steps that evaluations and
assignments are made of, and passes from steps to what is put together from them. Then `P` holds of every
evaluation (`Evaluating.eval`) and of every assignment, for all expressions, plain or not.
`MachineM.Stepwise P` adds the steps that change bindings, for all calls of the host (`Stepwise.perform`).
-/

namespace SlotScript

/-- Induction on expressions, with the members of objects, the elements of arrays and the arguments of
calls as operands. -/
@[induction_eliminator]
theorem Expr.induction {P : Expr → Prop} (literal : ∀ value, P (.literal value))
    (name : ∀ name, P (.name name)) (member : ∀ base property, P base → P (.member base property))
    (index : ∀ base key, P base → P key → P (.index base key))
    (object : ∀ members, (∀ member ∈ members, P member.2) → P (.object members))
    (array : ∀ elements, (∀ element ∈ elements, P element) → P (.array elements))
    (function : ∀ parameters code, P (.function parameters code))
    (unary : ∀ op operand, P operand → P (.unary op operand))
    (binary : ∀ op left right, P left → P right → P (.binary op left right))
    (and : ∀ left right, P left → P right → P (.and left right))
    (or : ∀ left right, P left → P right → P (.or left right))
    (call : ∀ callee arguments, (∀ argument ∈ arguments, P argument) → P (.call callee arguments))
    (e : Expr) : P e :=
  @Expr.rec P (fun members => ∀ member ∈ members, P member.2) (fun es => ∀ e ∈ es, P e)
    (fun member => P member.2) literal name member index object array function unary binary and or call
    (List.forall_mem_nil _) (fun _ _ hfirst hrest => List.forall_mem_cons.mpr ⟨hfirst, hrest⟩)
    (List.forall_mem_nil _) (fun _ _ hfirst hrest => List.forall_mem_cons.mpr ⟨hfirst, hrest⟩)
    (fun _ _ h => h) e

namespace MachineM

/-- `P` holds of the steps of evaluations and assignments, and of what is put together from operations of
which it holds. -/
structure Evaluating (P : {α : Type} → MachineM α → Prop) : Prop where
  pure : ∀ {α : Type} (x : α), P (Pure.pure x : MachineM α)
  throw : ∀ {α : Type} (e : MachineError), P (MonadExcept.throw e : MachineM α)
  bind : ∀ {α β : Type} {act : MachineM α} {f : α → MachineM β}, P act → (∀ x, P (f x)) →
    P (act >>= f)
  releasing : ∀ {α : Type} {act : MachineM α}, P act → P (releasing act)
  lookup : ∀ name, P (lookup name)
  resolve : ∀ outcome, P (resolve outcome)
  getProperty : ∀ base key, P (reading (·.getProperty base key))
  holdReference : ∀ r, P (holdReference r)
  callIntrinsic : ∀ intrinsic, P (callIntrinsic intrinsic)
  build : ∀ container, P (onArena (.build container))
  setValue : ∀ slot value, P (onArena (.setValue slot value))
  setProperty : ∀ base key outcome, P (onArena (.setProperty base key outcome))

/-- `P` holds also of the steps that change bindings, and of collections. -/
structure Stepwise (P : {α : Type} → MachineM α → Prop) : Prop extends Evaluating P where
  initialOutcome : ∀ name, P (initialOutcome name none)
  bindingSlot : ∀ outcome, P (onArena (.bindingSlot outcome))
  bindName : ∀ name slot,
    P (modify fun m => { m with bindings := m.bindings.insert name slot })
  removeBinding : ∀ name, P (modifyGet (·.removeBinding name))
  collect : P (modifyGet Machine.collect)

namespace Evaluating

variable {P : {α : Type} → MachineM α → Prop} (h : Evaluating P)
include h

theorem map {α β : Type} {act : MachineM α} (f : α → β) (hact : P act) : P (f <$> act) := by
  rw [map_eq_pure_bind]
  exact h.bind hact fun x => h.pure (f x)

theorem holdValue (value : Value) : P (holdValue value) := by
  unfold MachineM.holdValue
  cases value.handle? with
  | none => exact h.pure ()
  | some owner => exact h.holdReference (.handle owner)

theorem hold (outcome : Outcome) : P (hold outcome) := by
  cases outcome with
  | fresh value => exact h.holdValue value
  | aliased slot => exact h.holdReference (.slot slot)
  | minted slot => exact h.holdReference (.slot slot)

theorem checkBase (base : Value) (property : String) : P (checkBase base property) := by
  unfold MachineM.checkBase
  split
  · exact h.throw _
  · exact h.pure ()

theorem evalElements {elements : List Expr} (helements : ∀ element ∈ elements, P (eval element)) :
    P (evalElements elements) := by
  induction elements with
  | nil =>
    rw [MachineM.evalElements]
    exact h.pure []
  | cons element rest ih =>
    obtain ⟨hfirst, hrest⟩ := List.forall_mem_cons.mp helements
    rw [MachineM.evalElements]
    exact h.bind hfirst fun outcome => h.bind (h.hold outcome) fun _ =>
      h.bind (ih hrest) fun outcomes => h.pure _

theorem evalMembers {members : List (String × Expr)}
    (hmembers : ∀ member ∈ members, P (eval member.2)) : P (evalMembers members) := by
  rw [evalMembers_eq_map]
  refine h.map _ (h.evalElements fun e he => ?_)
  obtain ⟨member, hmember, rfl⟩ := List.mem_map.mp he
  exact hmembers member hmember

theorem evalArguments {arguments : List Expr}
    (harguments : ∀ argument ∈ arguments, P (eval argument)) : P (evalArguments arguments) := by
  induction arguments with
  | nil =>
    rw [MachineM.evalArguments]
    exact h.pure ()
  | cons argument rest ih =>
    obtain ⟨hfirst, hrest⟩ := List.forall_mem_cons.mp harguments
    rw [MachineM.evalArguments]
    exact h.bind hfirst fun _ => ih hrest

/-- What the steps of an evaluation do, the evaluation does. -/
theorem eval (e : Expr) : P (eval e) := by
  induction e with
  | literal value =>
    rw [eval_literal]
    exact h.releasing (h.pure _)
  | name name =>
    rw [MachineM.eval]
    refine h.releasing ?_
    cases constant? name with
    | some value => exact h.pure _
    | none => exact h.bind (h.lookup name) fun slot => h.pure _
  | member base property ih =>
    rw [MachineM.eval]
    refine h.releasing (h.bind (h.bind ih h.resolve) fun v => ?_)
    exact h.bind (h.checkBase v property) fun _ => h.getProperty v property
  | index base key ihbase ihkey =>
    rw [MachineM.eval]
    refine h.releasing (h.bind (h.bind ihbase h.resolve) fun v => ?_)
    refine h.bind (h.holdValue v) fun _ => h.bind (h.bind ihkey h.resolve) fun k => ?_
    exact h.bind (h.checkBase v k.toText) fun _ => h.getProperty v k.toText
  | object members ih =>
    rw [MachineM.eval]
    refine h.releasing (h.bind (h.evalMembers ih) fun outcomes => ?_)
    exact h.bind (h.build _) fun slot => h.pure _
  | array elements ih =>
    rw [MachineM.eval]
    refine h.releasing (h.bind (h.evalElements ih) fun outcomes => ?_)
    exact h.bind (h.build _) fun slot => h.pure _
  | function parameters code =>
    rw [MachineM.eval]
    exact h.releasing (h.bind (h.build _) fun slot => h.pure _)
  | unary op operand ih =>
    rw [MachineM.eval]
    exact h.releasing (h.bind (h.bind ih h.resolve) fun v => h.pure _)
  | binary op left right ihleft ihright =>
    rw [MachineM.eval]
    refine h.releasing (h.bind (h.bind ihleft h.resolve) fun v => ?_)
    exact h.bind (h.holdValue v) fun _ => h.bind (h.bind ihright h.resolve) fun w => h.pure _
  | and left right ihleft ihright =>
    rw [MachineM.eval]
    refine h.releasing (h.bind ihleft fun outcome => h.bind (h.resolve outcome) fun v => ?_)
    split
    · exact ihright
    · exact h.pure outcome
  | or left right ihleft ihright =>
    rw [MachineM.eval]
    refine h.releasing (h.bind ihleft fun outcome => h.bind (h.resolve outcome) fun v => ?_)
    split
    · exact h.pure outcome
    · exact ihright
  | call callee arguments ih =>
    rw [MachineM.eval]
    refine h.releasing ?_
    cases Intrinsic.ofName? callee with
    | none => exact h.throw _
    | some intrinsic =>
      exact h.bind (h.evalArguments ih) fun _ => h.bind (h.callIntrinsic intrinsic) fun v => h.pure _

theorem evalValue (e : Expr) : P (evalValue e) := h.bind (h.eval e) h.resolve

/-! ### Assignments -/

theorem assignProperty (base value : Expr) {property : MachineM String} (hproperty : P property) :
    P (assignProperty base property value) := by
  refine h.bind (h.evalValue base) fun v => h.bind (h.holdValue v) fun _ => ?_
  refine h.bind hproperty fun key => h.bind (h.checkBase v key) fun _ => ?_
  exact h.bind (h.eval value) fun outcome => h.setProperty v key outcome

theorem assign (target value : Expr) : P (assign target value) := by
  cases target with
  | name name =>
    exact h.bind (h.lookup name) fun slot => h.bind (h.evalValue value) fun v => h.setValue slot v
  | member base property => exact h.releasing (h.assignProperty base value (h.pure property))
  | index base key =>
    exact h.releasing (h.assignProperty base value (h.map Value.toText (h.evalValue key)))
  | _ => exact h.throw _

end Evaluating

namespace Stepwise

variable {P : {α : Type} → MachineM α → Prop} (h : Stepwise P)
include h

theorem declare (name : String) (initial : Option Expr) : P (declare name initial) := by
  refine h.bind ?_ fun outcome => h.bind (h.bindingSlot outcome) fun slot =>
    h.bind (h.bindName name slot) fun _ => h.pure slot
  cases initial with
  | some e => exact h.eval e
  | none => exact h.initialOutcome name

/-- What the steps of a call do, the call does. -/
theorem perform (call : HostCall) : P call.perform := by
  cases call with
  | declare name initial => exact h.map _ (h.declare name initial)
  | assign target value => exact h.map _ (h.assign target value)
  | eval e => exact h.map _ (h.eval e)
  | evalValue e => exact h.map _ (h.evalValue e)
  | removeBinding name => exact h.map _ (h.removeBinding name)
  | collect => exact h.map _ h.collect

end Stepwise

/-! ### Relations between the state before and the state after -/

section

variable {R : Machine → Machine → Prop}

theorem always_onArena {α : Type} {act : ArenaM α}
    (h : ∀ m : Machine, R m { m with arena := stateAfter act m.arena }) : Always R (onArena act) := by
  intro m
  have hm := h m
  rw [ends_onArena]
  unfold Ends
  cases hact : act m.arena with
  | ok x arena => rwa [stateAfter_of_ok hact] at hm
  | error e arena => rwa [stateAfter_of_error hact] at hm

theorem always_of_arena (harena : ∀ {m : Machine} {arena}, m.arena.Grows arena → R m { m with arena })
    {α : Type} {act : ArenaM α} (hact : Always Arena.Grows act) : Always R (onArena act) :=
  always_onArena fun m => harena (hact.stateAfter m.arena)

variable [IsPreorder Machine R]

theorem always_reading {α : Type} (f : Arena → Except ArenaError α) : Always R (reading f) := by
  intro m
  rw [reading, ends_onArena, ends_read]
  cases f m.arena <;> exact refl_of R m

/-- What a declaration starts from is evaluated, or read off. -/
theorem always_initialOutcome (name : String) {initial : Option Expr}
    (h : ∀ e ∈ initial, Always R (eval e)) : Always R (initialOutcome name initial) := by
  cases initial with
  | some e => exact h e rfl
  | none =>
    refine Always.bind (fun m => refl_of R m) fun m => ?_
    cases m.bindings.get? name with
    | some slot => exact always_pure _
    | none => exact always_pure _

/-- A transitive relation between machines that the steps of evaluations and assignments keep to, all of
these keep to. -/
theorem evaluating_always
    (harena : ∀ (m : Machine) (call : ArenaCall), m.arena.Grows (m.arena.after call) →
      R m { m with arena := m.arena.after call })
    (hcollect : ∀ m, R m m.collect.2)
    (hhold : ∀ m r, R m { m with temporaries := r :: m.temporaries })
    (hrelease : ∀ {m m'}, R m m' → R m (m'.release m.temporaries.length)) :
    Evaluating (Always R) where
  pure x := always_pure x
  throw e := fun m => refl_of R m
  bind hact hf := hact.bind hf
  releasing hact := by
    intro m
    rw [ends_releasing]
    exact (hact m).mono (fun _ _ => hrelease) fun _ _ => hrelease
  lookup name := by
    intro m
    cases hname : m.bindings.get? name with
    | some slot => exact (ends_ok (lookup_eq_ok hname)).mpr (refl_of R m)
    | none => exact (ends_error (lookup_eq_error hname)).mpr (refl_of R m)
  resolve outcome := always_reading _
  getProperty base key := always_reading _
  holdReference r := always_modify fun m => hhold m r
  callIntrinsic intrinsic := by
    cases intrinsic with
    | liveSlots => exact fun m => refl_of R m
    | totalAllocations => exact fun m => refl_of R m
    | collect => exact hcollect
  build container :=
    always_onArena fun m => harena m (.build container) ((ArenaM.grows.build container).stateAfter _)
  setValue slot value :=
    always_onArena fun m => harena m (.setValue slot value) ((ArenaM.grows_setValue slot value).stateAfter _)
  setProperty base key outcome := always_onArena fun m =>
    harena m (.setProperty base key outcome) ((ArenaM.grows.setProperty base key outcome).stateAfter _)

/-- The same for all steps. -/
theorem stepwise_always
    (harena : ∀ (m : Machine) (call : ArenaCall), m.arena.Grows (m.arena.after call) →
      R m { m with arena := m.arena.after call })
    (hcollect : ∀ m, R m m.collect.2) (hbindings : ∀ m bindings, R m { m with bindings })
    (hhold : ∀ m r, R m { m with temporaries := r :: m.temporaries })
    (hrelease : ∀ {m m'}, R m m' → R m (m'.release m.temporaries.length)) :
    Stepwise (Always R) where
  toEvaluating := evaluating_always harena hcollect hhold hrelease
  initialOutcome name := always_initialOutcome name fun _ he => by cases he
  bindingSlot outcome := always_onArena fun m =>
    harena m (.bindingSlot outcome) ((ArenaM.grows.bindingSlot outcome).stateAfter _)
  bindName name slot := always_modify fun m => hbindings m _
  removeBinding name := by
    intro m
    show R m (m.removeBinding name).2
    cases hname : m.bindings.get? name with
    | none =>
      rw [Machine.removeBinding_of_none hname]
      exact refl_of R m
    | some slot =>
      rw [Machine.removeBinding_of_some hname]
      split
      · exact trans_of R (hbindings m _) (hcollect _)
      · exact hbindings m _
  collect := hcollect

end

end MachineM

end SlotScript
