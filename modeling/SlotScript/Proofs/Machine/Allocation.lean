import SlotScript.Proofs.Arena.Allocation
import SlotScript.Proofs.Machine.Bookkeeping
import SlotScript.Proofs.Machine.Evaluations
import SlotScript.Proofs.Machine.Sound

/-!
# How many slots an evaluation takes

The number of slots that an evaluation takes can be counted from the evaluations that it makes
(`MachineM.slotsFor`): one for each literal of a container, and one for each member or element of those
whose own outcome is fresh. `spends_eval` shows this by induction on the expression, with what the
collections in between free (`MachineM.freedDuring`) taken off the live slots.
-/

namespace SlotScript

/-- The literals of containers. -/
def Expr.isContainer : Expr → Bool
  | object _ | array _ | function _ _ => true
  | _ => false

namespace MachineM

/-- Whether an evaluation ends in a fresh outcome. -/
def endsFresh (p : Expr × Machine) : Bool :=
  match eval p.1 p.2 with
  | .ok outcome _ => outcome.isFresh
  | .error _ _ => false

/-- The number of members or elements of a literal whose own outcome is fresh. -/
def freshMembers (p : Expr × Machine) : Nat :=
  if p.1.isContainer then (operands p.1 p.2).countP endsFresh else 0

/-- The slots that some evaluations take: one for each literal of a container, and one for each member
or element of those whose own outcome is fresh. -/
def slotsFor (evaluated : List (Expr × Machine)) : Nat :=
  evaluated.countP (·.1.isContainer) + (evaluated.map freshMembers).sum

/-- The slots that an evaluation frees itself, apart from its operands: those of a collection. -/
def freedBy (p : Expr × Machine) : Nat :=
  match p.1 with
  | .call callee arguments =>
    if Intrinsic.ofName? callee = some .collect then
      match evalArguments arguments p.2 with
      | .ok _ m => m.collect.1.freed
      | .error _ _ => 0
    else 0
  | _ => 0

/-- The slots that the collections of some evaluations free. -/
def freedDuring (evaluated : List (Expr × Machine)) : Nat := (evaluated.map freedBy).sum

theorem slotsFor_append (before after : List (Expr × Machine)) :
    slotsFor (before ++ after) = slotsFor before + slotsFor after := by
  simp only [slotsFor, List.countP_append, List.map_append, List.sum_append]
  omega

theorem freedDuring_append (before after : List (Expr × Machine)) :
    freedDuring (before ++ after) = freedDuring before + freedDuring after := by
  simp only [freedDuring, List.map_append, List.sum_append]

end MachineM

open MachineM

namespace Machine

/-- `slots` slots were allocated, and `freed` ones freed. -/
structure Spent (m : Machine) (slots freed : Nat) (m' : Machine) : Prop where
  total_eq : m'.arena.total = m.arena.total + slots
  live_eq : m'.arena.live + freed = m.arena.live + slots

variable {m m' m'' : Machine} {slots freed slots' freed' : Nat}

theorem spent_of_arena_eq (h : m'.arena = m.arena) : m.Spent 0 0 m' :=
  ⟨congrArg Arena.total h, congrArg Arena.live h⟩

theorem spent_of_took {arena : Arena} (h : m.arena.Took slots arena) :
    m.Spent slots 0 { m with arena } := ⟨h.total_eq, h.live_eq⟩

theorem Spent.trans (h : m.Spent slots freed m') (h' : m'.Spent slots' freed' m'') :
    m.Spent (slots + slots') (freed + freed') m'' := by
  constructor
  · rw [h'.total_eq, h.total_eq, Nat.add_assoc]
  · have h₁ := h.live_eq
    have h₂ := h'.live_eq
    omega

/-- `Spent`, as the evaluations in between say. -/
def SpentOn (m : Machine) (evaluated : List (Expr × Machine)) (m' : Machine) : Prop :=
  m.Spent (slotsFor evaluated) (freedDuring evaluated) m'

theorem SpentOn.append {before after : List (Expr × Machine)} (h : m.SpentOn before m')
    (h' : m'.SpentOn after m'') : m.SpentOn (before ++ after) m'' := by
  unfold SpentOn
  rw [slotsFor_append, freedDuring_append]
  exact h.trans h'

theorem SpentOn.release {evaluated : List (Expr × Machine)} (h : m.SpentOn evaluated m')
    (depth : Nat) : m.SpentOn evaluated (m'.release depth) := ⟨h.total_eq, h.live_eq⟩

theorem SpentOn.holding {evaluated : List (Expr × Machine)} (h : m.SpentOn evaluated m')
    (held : List Reference) : m.SpentOn evaluated (m'.holding held) := ⟨h.total_eq, h.live_eq⟩

end Machine

namespace MachineM

variable {m m' : Machine} {e left right : Expr}

/-- What is shown for every machine by induction. -/
def Spends (e : Expr) : Prop :=
  ∀ ⦃m : Machine⦄ ⦃outcome m'⦄, m.arena.Accounted → eval e m = .ok outcome m' →
    m.SpentOn (evaluations e m) m'

theorem accounted_of_eval (h : m.arena.Accounted) {outcome : Outcome}
    (heval : eval e m = .ok outcome m') : m'.arena.Accounted :=
  ((ends_ok heval).mp (stepwise_advances.eval e m) h).1

/-! ### Operations that take nothing -/

theorem eq_of_holdValue {v : Value} (h : holdValue v m = .ok () m') : m' = m.holding v.held := by
  rw [holdValue_eq] at h
  cases h
  rfl

theorem eq_of_hold {o : Outcome} (h : hold o m = .ok () m') : m' = m.holding o.held := by
  rw [hold_eq] at h
  cases h
  rfl

/-! ### Operands -/

theorem inTurn_singleton (step : Expr → MachineM PUnit) (e : Expr) (m : Machine) :
    inTurn step [e] m = [(e, m)] := by
  unfold inTurn
  split <;> rfl

theorem inTurn_cons_of_ok {step : Expr → MachineM PUnit} {rest : List Expr}
    (h : step e m = .ok ⟨⟩ m') : inTurn step (e :: rest) m = (e, m) :: inTurn step rest m' := by
  rw [inTurn, h]

theorem inCase_of_ok {before : MachineM Bool} {holds : Bool} (h : before m = .ok holds m') :
    inCase before e m = if holds then [(e, m')] else [] := by
  rw [inCase, h]
  cases holds <;> rfl

/-- What an evaluation spends is what its operands spend and what it spends itself. -/
theorem spentOn_evaluations {m₁ : Machine}
    (hoperands : m.SpentOn ((operands e m).flatMap fun p => evaluations p.1 p.2) m₁)
    (hown : m₁.SpentOn [(e, m)] m') : m.SpentOn (evaluations e m) m' := by
  have h := hoperands.append hown
  unfold Machine.SpentOn at h ⊢
  rw [evaluations_eq, ← List.singleton_append, slotsFor_append, freedDuring_append,
    Nat.add_comm (slotsFor _), Nat.add_comm (freedDuring _), ← slotsFor_append, ← freedDuring_append]
  exact h

theorem spentOn_one {m : Machine} {p : Expr × Machine}
    (h : m.SpentOn (evaluations p.1 p.2) m') :
    m.SpentOn ([p].flatMap fun p => evaluations p.1 p.2) m' := by
  rwa [List.flatMap_singleton]

theorem spentOn_cons {m m₁ : Machine} {p : Expr × Machine} {rest : List (Expr × Machine)}
    (h : m.SpentOn (evaluations p.1 p.2) m₁)
    (hrest : m₁.SpentOn (rest.flatMap fun p => evaluations p.1 p.2) m') :
    m.SpentOn ((p :: rest).flatMap fun p => evaluations p.1 p.2) m' := by
  rw [List.flatMap_cons]
  exact h.append hrest

theorem spentOn_nil (m : Machine) : m.SpentOn [] m := Machine.spent_of_arena_eq rfl

theorem Spends.value (he : Spends e) (h : m.arena.Accounted) {v : Value}
    (heval : (eval e >>= resolve) m = .ok v m') :
    m.SpentOn (evaluations e m) m' ∧ m'.arena.Accounted := by
  obtain ⟨o, m₁, heval, hresolve⟩ := bind_eq_ok_iff.mp heval
  rw [eq_of_reading hresolve]
  exact ⟨he h heval, accounted_of_eval h heval⟩

/-- Elements evaluated one after the other, each held. -/
theorem spentOn_evalElements {elements : List Expr} (helements : ∀ e ∈ elements, Spends e)
    (h : m.arena.Accounted) {outcomes : List Outcome}
    (heval : evalElements elements m = .ok outcomes m') :
    m.SpentOn ((inTurn keeping elements m).flatMap fun p => evaluations p.1 p.2) m' ∧
      outcomes.countP (·.isFresh) = (inTurn keeping elements m).countP endsFresh := by
  induction elements generalizing m outcomes with
  | nil =>
    rw [evalElements] at heval
    cases heval
    exact ⟨spentOn_nil _, rfl⟩
  | cons e rest ih =>
    obtain ⟨hfirst, hrest⟩ := List.forall_mem_cons.mp helements
    rw [evalElements] at heval
    obtain ⟨o, m₁, he, hafter⟩ := bind_eq_ok_iff.mp heval
    obtain ⟨_, m₂, hhold, hothers⟩ := bind_eq_ok_iff.mp hafter
    obtain ⟨others, m₃, hrun, ⟨⟩⟩ := bind_eq_ok_iff.mp hothers
    have hkeeping : keeping e m = .ok ⟨⟩ m₂ := bind_eq_ok_iff.mpr ⟨o, m₁, he, hhold⟩
    obtain rfl := eq_of_hold hhold
    have haccounted := accounted_of_eval h he
    obtain ⟨hspent, hcount⟩ := ih hrest (m := m₁.holding o.held) haccounted hrun
    rw [inTurn_cons_of_ok hkeeping, List.countP_cons, List.countP_cons, hcount]
    refine ⟨spentOn_cons ((hfirst h he).holding o.held) hspent, ?_⟩
    rw [endsFresh, he]

theorem spentOn_evalArguments {arguments : List Expr} (harguments : ∀ e ∈ arguments, Spends e)
    (h : m.arena.Accounted) (heval : evalArguments arguments m = .ok () m') :
    m.SpentOn ((inTurn discarding arguments m).flatMap fun p => evaluations p.1 p.2) m' ∧
      m'.arena.Accounted := by
  induction arguments generalizing m with
  | nil =>
    rw [evalArguments] at heval
    cases heval
    exact ⟨spentOn_nil _, h⟩
  | cons e rest ih =>
    obtain ⟨hfirst, hrest⟩ := List.forall_mem_cons.mp harguments
    rw [evalArguments] at heval
    obtain ⟨o, m₁, he, hrun⟩ := bind_eq_ok_iff.mp heval
    have hdiscarding : discarding e m = .ok ⟨⟩ m₁ := bind_eq_ok_iff.mpr ⟨o, m₁, he, rfl⟩
    obtain ⟨hspent, haccounted⟩ := ih hrest (accounted_of_eval h he) hrun
    rw [inTurn_cons_of_ok hdiscarding]
    exact ⟨spentOn_cons (hfirst h he) hspent, haccounted⟩

/-- Two operands of which the values are needed. -/
theorem spentOn_keepingValue (hleft : Spends left) (hright : Spends right) (h : m.arena.Accounted)
    {v w : Value} {m₁ m₂ : Machine} (hv : (eval left >>= resolve) m = .ok v m₁)
    (hhold : holdValue v m₁ = .ok () m₂) (hw : (eval right >>= resolve) m₂ = .ok w m') :
    m.SpentOn ((inTurn keepingValue [left, right] m).flatMap fun p => evaluations p.1 p.2) m' := by
  have hkeeping : keepingValue left m = .ok ⟨⟩ m₂ := bind_eq_ok_iff.mpr ⟨v, m₁, hv, hhold⟩
  obtain rfl := eq_of_holdValue hhold
  obtain ⟨hspent, haccounted⟩ := hleft.value h hv
  rw [inTurn_cons_of_ok hkeeping, inTurn_singleton]
  exact spentOn_cons (hspent.holding v.held)
    (spentOn_one (hright.value (m := m₁.holding v.held) haccounted hw).1)

/-! ### The forms of expressions -/

theorem spends_literal (value : Value) : Spends (.literal value) := by
  intro m o m' h heval
  rw [eval_literal] at heval
  obtain ⟨_, ⟨⟩, rfl⟩ := releasing_eq_ok_iff.mp heval
  exact spentOn_evaluations (spentOn_nil m) (Machine.spent_of_arena_eq rfl)

theorem spends_name (name : String) : Spends (.name name) := by
  intro m o m' h heval
  rw [eval] at heval
  obtain ⟨m₁, hname, rfl⟩ := releasing_eq_ok_iff.mp heval
  refine spentOn_evaluations (spentOn_nil m) (Machine.spent_of_arena_eq ?_)
  cases hconstant : constant? name with
  | some value =>
    rw [hconstant] at hname
    cases hname
    rfl
  | none =>
    rw [hconstant] at hname
    obtain ⟨slot, m₂, hlookup, ⟨⟩⟩ := bind_eq_ok_iff.mp hname
    rw [(eq_of_lookup hlookup).1]
    rfl

theorem Spends.member (he : Spends e) (property : String) : Spends (.member e property) := by
  intro m o m' h heval
  rw [eval] at heval
  obtain ⟨m₁, hrun, rfl⟩ := releasing_eq_ok_iff.mp heval
  obtain ⟨v, m₂, hv, hrest⟩ := bind_eq_ok_iff.mp hrun
  obtain ⟨_, m₃, hcheck, hget⟩ := bind_eq_ok_iff.mp hrest
  obtain rfl := eq_of_reading hget
  obtain rfl := eq_of_checkBase hcheck
  exact spentOn_evaluations (spentOn_one (he.value h hv).1) (Machine.spent_of_arena_eq rfl)

theorem Spends.index {key : Expr} (he : Spends e) (hkey : Spends key) : Spends (.index e key) := by
  intro m o m' h heval
  rw [eval] at heval
  obtain ⟨m₁, hrun, rfl⟩ := releasing_eq_ok_iff.mp heval
  obtain ⟨v, m₂, hv, hrest⟩ := bind_eq_ok_iff.mp hrun
  obtain ⟨_, m₃, hhold, hthen⟩ := bind_eq_ok_iff.mp hrest
  obtain ⟨k, m₄, hk, hread⟩ := bind_eq_ok_iff.mp hthen
  obtain ⟨_, m₅, hcheck, hget⟩ := bind_eq_ok_iff.mp hread
  obtain rfl := eq_of_reading hget
  obtain rfl := eq_of_checkBase hcheck
  exact spentOn_evaluations (spentOn_keepingValue he hkey h hv hhold hk)
    (Machine.spent_of_arena_eq rfl)

theorem Spends.unary (he : Spends e) (op : UnaryOp) : Spends (.unary op e) := by
  intro m o m' h heval
  rw [eval] at heval
  obtain ⟨m₁, hrun, rfl⟩ := releasing_eq_ok_iff.mp heval
  obtain ⟨v, m₂, hv, ⟨⟩⟩ := bind_eq_ok_iff.mp hrun
  exact spentOn_evaluations (spentOn_one (he.value h hv).1) (Machine.spent_of_arena_eq rfl)

theorem Spends.binary (hleft : Spends left) (hright : Spends right) (op : BinaryOp) :
    Spends (.binary op left right) := by
  intro m o m' h heval
  rw [eval] at heval
  obtain ⟨m₁, hrun, rfl⟩ := releasing_eq_ok_iff.mp heval
  obtain ⟨v, m₂, hv, hrest⟩ := bind_eq_ok_iff.mp hrun
  obtain ⟨_, m₃, hhold, hthen⟩ := bind_eq_ok_iff.mp hrest
  obtain ⟨w, m₄, hw, ⟨⟩⟩ := bind_eq_ok_iff.mp hthen
  exact spentOn_evaluations (spentOn_keepingValue hleft hright h hv hhold hw)
    (Machine.spent_of_arena_eq rfl)

/-- What building the container of a literal takes, with the fresh ones among its members counted. -/
theorem spentOn_build {m₁ : Machine} {container : NewContainer} {slot : SlotId}
    (hcontainer : e.isContainer = true) (hcollects : freedBy (e, m) = 0)
    (hfresh : container.outcomes.countP (·.isFresh) = (operands e m).countP endsFresh)
    (hbuild : onArena (.build container) m₁ = .ok slot m') : m₁.SpentOn [(e, m)] m' := by
  obtain ⟨arena, htook, rfl⟩ := onArena_eq_ok_iff.mp hbuild
  have hslots : slotsFor [(e, m)] = 1 + container.outcomes.countP (·.isFresh) := by
    simp [slotsFor, freshMembers, hcontainer, hfresh]
  have hfreed : freedDuring [(e, m)] = 0 := by simp [freedDuring, hcollects]
  rw [Machine.SpentOn, hslots, hfreed]
  exact Machine.spent_of_took (ArenaM.took_build htook)

theorem length_of_evalElements {elements : List Expr} {outcomes : List Outcome}
    (heval : evalElements elements m = .ok outcomes m') : outcomes.length = elements.length := by
  induction elements generalizing m outcomes with
  | nil =>
    rw [evalElements] at heval
    cases heval
    rfl
  | cons e rest ih =>
    rw [evalElements] at heval
    obtain ⟨o, m₁, -, hafter⟩ := bind_eq_ok_iff.mp heval
    obtain ⟨_, m₂, -, hothers⟩ := bind_eq_ok_iff.mp hafter
    obtain ⟨others, m₃, hrun, ⟨⟩⟩ := bind_eq_ok_iff.mp hothers
    rw [List.length_cons, List.length_cons, ih hrun]

theorem spends_object {members : List (String × Expr)}
    (hmembers : ∀ member ∈ members, Spends member.2) : Spends (.object members) := by
  intro m o m' h heval
  rw [eval] at heval
  obtain ⟨m₁, hrun, rfl⟩ := releasing_eq_ok_iff.mp heval
  obtain ⟨named, m₂, hnamed, hrest⟩ := bind_eq_ok_iff.mp hrun
  obtain ⟨slot, m₃, hbuild, ⟨⟩⟩ := bind_eq_ok_iff.mp hrest
  rw [evalMembers_eq_map, map_eq_ok_iff] at hnamed
  obtain ⟨outcomes, houtcomes, rfl⟩ := hnamed
  have hlength := length_of_evalElements houtcomes
  obtain ⟨hspent, hfresh⟩ := spentOn_evalElements (fun e he => by
    obtain ⟨member, hmember, rfl⟩ := List.mem_map.mp he
    exact hmembers member hmember) h houtcomes
  refine spentOn_evaluations hspent ((spentOn_build rfl rfl ?_ hbuild).release _)
  rw [NewContainer.outcomes, List.map_snd_zip (by simp [hlength])]
  exact hfresh

theorem spends_array {elements : List Expr} (helements : ∀ e ∈ elements, Spends e) :
    Spends (.array elements) := by
  intro m o m' h heval
  rw [eval] at heval
  obtain ⟨m₁, hrun, rfl⟩ := releasing_eq_ok_iff.mp heval
  obtain ⟨outcomes, m₂, houtcomes, hrest⟩ := bind_eq_ok_iff.mp hrun
  obtain ⟨slot, m₃, hbuild, ⟨⟩⟩ := bind_eq_ok_iff.mp hrest
  obtain ⟨hspent, hfresh⟩ := spentOn_evalElements helements h houtcomes
  refine spentOn_evaluations hspent ((spentOn_build rfl rfl ?_ hbuild).release _)
  exact hfresh

theorem spends_function (parameters : List String) (code : Nat) :
    Spends (.function parameters code) := by
  intro m o m' h heval
  rw [eval] at heval
  obtain ⟨m₁, hrun, rfl⟩ := releasing_eq_ok_iff.mp heval
  obtain ⟨slot, m₂, hbuild, ⟨⟩⟩ := bind_eq_ok_iff.mp hrun
  exact spentOn_evaluations (spentOn_nil m)
    ((spentOn_build rfl rfl rfl hbuild).release _)

/-- An operand that is evaluated only in a case. -/
theorem spentOn_inCase (he : Spends e) {before : MachineM Bool} {holds : Bool} {m₁ : Machine}
    (hbefore : before m = .ok holds m₁) (h : m₁.arena.Accounted) {o outcome : Outcome}
    (hrun : (if holds then eval e else return o) m₁ = .ok outcome m') :
    m₁.SpentOn ((inCase before e m).flatMap fun p => evaluations p.1 p.2) m' := by
  rw [inCase_of_ok hbefore]
  cases holds with
  | true => exact spentOn_one (he h hrun)
  | false =>
    cases hrun
    exact spentOn_nil _

theorem Spends.and (hleft : Spends left) (hright : Spends right) : Spends (.and left right) := by
  intro m o m' h heval
  rw [eval] at heval
  obtain ⟨m₁, hrun, rfl⟩ := releasing_eq_ok_iff.mp heval
  obtain ⟨o₁, m₂, ho, hrest⟩ := bind_eq_ok_iff.mp hrun
  obtain ⟨v, m₃, hv, hthen⟩ := bind_eq_ok_iff.mp hrest
  have htruth : truth left m = .ok v.toBoolean m₃ :=
    map_eq_ok_iff.mpr ⟨v, bind_eq_ok_iff.mpr ⟨o₁, m₂, ho, hv⟩, rfl⟩
  obtain rfl := eq_of_reading hv
  exact spentOn_evaluations (spentOn_cons (hleft h ho)
    (spentOn_inCase hright htruth (accounted_of_eval h ho) hthen)) (Machine.spent_of_arena_eq rfl)

theorem Spends.or (hleft : Spends left) (hright : Spends right) : Spends (.or left right) := by
  intro m o m' h heval
  rw [eval] at heval
  obtain ⟨m₁, hrun, rfl⟩ := releasing_eq_ok_iff.mp heval
  obtain ⟨o₁, m₂, ho, hrest⟩ := bind_eq_ok_iff.mp hrun
  obtain ⟨v, m₃, hv, hthen⟩ := bind_eq_ok_iff.mp hrest
  have htruth : (not <$> truth left) m = .ok (!v.toBoolean) m₃ :=
    map_eq_ok_iff.mpr
      ⟨_, map_eq_ok_iff.mpr ⟨v, bind_eq_ok_iff.mpr ⟨o₁, m₂, ho, hv⟩, rfl⟩, rfl⟩
  obtain rfl := eq_of_reading hv
  have hcase : (if !v.toBoolean then eval right else return o₁) m₃ = .ok o m₁ := by
    cases htruthy : v.toBoolean <;> rw [htruthy] at hthen <;> exact hthen
  exact spentOn_evaluations (spentOn_cons (hleft h ho)
    (spentOn_inCase hright htruth (accounted_of_eval h ho) hcase)) (Machine.spent_of_arena_eq rfl)

/-- What an intrinsic does besides evaluating its arguments: a collection frees slots. -/
theorem spentOn_callIntrinsic {callee : String} {arguments : List Expr} {intrinsic : Intrinsic}
    (hcallee : Intrinsic.ofName? callee = some intrinsic) {m₁ : Machine}
    (hrun : evalArguments arguments m = .ok () m₁) (h : m₁.arena.Accounted) {v : Value}
    (hcall : callIntrinsic intrinsic m₁ = .ok v m') :
    m₁.SpentOn [(.call callee arguments, m)] m' := by
  have hfreed : freedDuring [(.call callee arguments, m)] =
      if intrinsic = .collect then m₁.collect.1.freed else 0 := by
    simp [freedDuring, freedBy, hcallee, hrun]
  rw [Machine.SpentOn, hfreed]
  cases intrinsic with
  | collect =>
    cases hcall
    have hshrunk := h.collect m₁.roots
    exact ⟨hshrunk.total_eq, hshrunk.live_eq⟩
  | liveSlots => cases hcall; exact Machine.spent_of_arena_eq rfl
  | totalAllocations => cases hcall; exact Machine.spent_of_arena_eq rfl

theorem spends_call (callee : String) {arguments : List Expr}
    (harguments : ∀ argument ∈ arguments, Spends argument) : Spends (.call callee arguments) := by
  intro m o m' h heval
  rw [eval] at heval
  obtain ⟨m₁, hrun, rfl⟩ := releasing_eq_ok_iff.mp heval
  cases hcallee : Intrinsic.ofName? callee with
  | none => rw [hcallee] at hrun; cases hrun
  | some intrinsic =>
    rw [hcallee] at hrun
    obtain ⟨_, m₂, hevaluated, hrest⟩ := bind_eq_ok_iff.mp hrun
    obtain ⟨v, m₃, hcall, ⟨⟩⟩ := bind_eq_ok_iff.mp hrest
    obtain ⟨hspent, haccounted⟩ := spentOn_evalArguments harguments h hevaluated
    refine spentOn_evaluations ?_ ((spentOn_callIntrinsic hcallee hevaluated haccounted hcall).release _)
    rw [operands, if_pos (by rw [hcallee]; rfl)]
    exact hspent

/-- **What a successful evaluation takes**: as many slots as its evaluations say. -/
theorem spends_eval (e : Expr) : Spends e := by
  induction e with
  | literal value => exact spends_literal value
  | name name => exact spends_name name
  | member base property ih => exact ih.member property
  | index base key ihbase ihkey => exact ihbase.index ihkey
  | object members ih => exact spends_object ih
  | array elements ih => exact spends_array ih
  | function parameters code => exact spends_function parameters code
  | unary op operand ih => exact ih.unary op
  | binary op left right ihleft ihright => exact ihleft.binary ihright op
  | and left right ihleft ihright => exact ihleft.and ihright
  | or left right ihleft ihright => exact ihleft.or ihright
  | call callee arguments ih => exact spends_call callee ih

end MachineM

end SlotScript
