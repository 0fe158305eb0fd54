import SlotScript.Proofs.Arena.Mirrored
import SlotScript.Proofs.Machine.Sound

/-!
# Evaluation on machines that mirror each other

`Machine.Mirrored p`: the machine `p.full` has the image of every binding and of every temporary of
`p.swept`. The two may evaluate an expression with collections at different costs, but not with
different outcomes, as long as no number of freed or live slots gets into a value: `Expr.Steady`.

What is held keeps its image (`Advanced.agree`), for the same reason as it stays valid.
-/

namespace SlotScript

/-- All literals are primitive, and a call whose number depends on what was freed stands only where
its value is discarded: as an argument of a call, or as the whole expression if that is `discarded`. -/
inductive Expr.Steady : (discarded : Bool) → Expr → Prop where
  | literal {d value} : value.handle? = none → Steady d (.literal value)
  | name {d} (name) : Steady d (.name name)
  | member {d base property} : Steady false base → Steady d (.member base property)
  | index {d base key} : Steady false base → Steady false key → Steady d (.index base key)
  | object {d members} : (∀ member ∈ members, Steady false member.2) → Steady d (.object members)
  | array {d elements} : (∀ element ∈ elements, Steady false element) → Steady d (.array elements)
  | function {d} (parameters code) : Steady d (.function parameters code)
  | unary {d op operand} : Steady false operand → Steady d (.unary op operand)
  | binary {d op left right} : Steady false left → Steady false right →
      Steady d (.binary op left right)
  | and {d left right} : Steady false left → Steady false right → Steady d (.and left right)
  | or {d left right} : Steady false left → Steady false right → Steady d (.or left right)
  | call {d callee arguments} :
      (d = false → callee ≠ Intrinsic.collect.name ∧ callee ≠ Intrinsic.liveSlots.name) →
      (∀ argument ∈ arguments, Steady true argument) → Steady d (.call callee arguments)

theorem Outcome.held_rename (ρ : SlotId → SlotId) (o : Outcome) :
    (o.rename ρ).held = o.held.map (Reference.rename ρ) := by
  cases o with
  | fresh value => cases value <;> rfl
  | aliased slot => rfl
  | minted slot => rfl

theorem Outcome.rename_congr {ρ ρ' : SlotId → SlotId} {o : Outcome}
    (h : ∀ r ∈ o.held, ρ' r.id = ρ r.id) : o.rename ρ' = o.rename ρ := by
  cases o with
  | fresh value =>
    refine congrArg Outcome.fresh (Value.rename_congr fun owner howner => ?_)
    exact h (.handle owner) (Value.mem_held.mpr ⟨owner, howner, rfl⟩)
  | aliased slot => exact congrArg Outcome.aliased (h (.slot slot) (List.mem_singleton_self _))
  | minted slot => exact congrArg Outcome.minted (h (.slot slot) (List.mem_singleton_self _))

theorem Reference.rename_congr {ρ ρ' : SlotId → SlotId} {r : Reference} (h : ρ' r.id = ρ r.id) :
    r.rename ρ' = r.rename ρ := by
  cases r with
  | slot id => exact congrArg Reference.slot h
  | handle id => exact congrArg Reference.handle h

namespace Twin

/-- The arenas of two machines. -/
def arena (p : Twin Machine) : Twin Arena := ⟨p.image, p.swept.arena, p.full.arena⟩

/-- The machines with other arenas. -/
def withArena (p : Twin Machine) (q : Twin Arena) : Twin Machine :=
  ⟨q.image, { p.swept with arena := q.swept }, { p.full with arena := q.full }⟩

/-- Both machines drop temporaries. -/
def release (p : Twin Machine) (depth : Nat) : Twin Machine :=
  ⟨p.image, p.swept.release depth, p.full.release depth⟩

end Twin

section

open MachineM

variable {R R' : Twin Machine → Twin Machine → Prop} {α β : Type} {p : Twin Machine}

/-- Operations on the arenas follow each other on the machines too. -/
theorem Follows.onArena {S : Twin Arena → Twin Arena → Prop} {act : ArenaM α} {act' : ArenaM β}
    {ok : α → β → Twin Arena → Prop} (h : Follows S (·.isFatal) act act' p.arena ok)
    (hS : ∀ q, S p.arena q → R p (p.withArena q)) :
    Follows R (·.isFatal) (onArena act) (onArena act') p (fun x y q => ok x y q.arena) := by
  unfold Follows
  rw [ends_onArena]
  refine Ends.mono h ?_ ?_
  · rintro y full ⟨x, swept, ρ, hact, hq, hx⟩
    exact ⟨x, _, ρ, onArena_eq_ok hact, hS _ hq, hx⟩
  · rintro e full (hfatal | ⟨swept, ρ, hact, hq⟩)
    · exact .inl hfatal
    · exact .inr ⟨_, ρ, onArena_eq_error hact, hS _ hq⟩

/-- So do operations that release what they held, where both machines held as much before. -/
theorem Follows.releasing {act : MachineM α} {act' : MachineM β} {ok : α → β → Twin Machine → Prop}
    (h : Follows R (·.isFatal) act act' p ok)
    (hlength : p.full.temporaries.length = p.swept.temporaries.length)
    (hR : ∀ q, R p q → R' p (q.release p.swept.temporaries.length))
    (hok : ∀ x y q, ok x y q → ok x y (q.release p.swept.temporaries.length)) :
    Follows R' (·.isFatal) (releasing act) (releasing act') p ok := by
  unfold Follows
  rw [ends_releasing, hlength]
  refine Ends.mono h ?_ ?_
  · rintro y full ⟨x, swept, ρ, hact, hq, hx⟩
    exact ⟨x, _, ρ, releasing_eq_ok hact, hR _ hq, hok _ _ _ hx⟩
  · rintro e full (hfatal | ⟨swept, ρ, hact, hq⟩)
    · exact .inl hfatal
    · exact .inr ⟨_, ρ, releasing_eq_error hact, hR _ hq⟩

end

namespace Machine

/-- `p.full` has the image of all that `p.swept` refers to. -/
structure Mirrored (p : Twin Machine) : Prop where
  sound : p.swept.Sound
  arena : Arena.Mirrored p.arena
  bindings_eq : p.full.bindings = p.swept.bindings.rename p.image
  temporaries_eq : p.full.temporaries = p.swept.temporaries.map (Reference.rename p.image)

/-- What an evaluation does on both sides. What `p.swept` refers to keeps its image. -/
structure Advanced (p q : Twin Machine) : Prop where
  steps : p.swept.Steps q.swept
  mirrored : Mirrored q
  agree : ∀ r ∈ p.swept.roots, q.image r.id = p.image r.id

instance : IsTrans (Twin Machine) Advanced where
  trans _ _ _ h h' :=
    ⟨trans_of Steps h.steps h'.steps, h'.mirrored,
      fun r hr => (h'.agree r (h.steps.roots_subset hr)).trans (h.agree r hr)⟩

variable {p q : Twin Machine}

theorem Mirrored.advanced_refl (h : Mirrored p) : Advanced p p :=
  ⟨h.sound.steps_refl, h, fun _ _ => rfl⟩

/-- The arenas may go on without the machines noticing. -/
theorem Mirrored.of_arena (h : Mirrored p) {q : Twin Arena}
    (hsound : Sound { p.swept with arena := q.swept }) (hmirrored : Arena.Mirrored q)
    (hagree : ∀ {id}, p.swept.arena.isLive id → q.image id = p.image id) :
    Mirrored (p.withArena q) := by
  refine ⟨hsound, hmirrored, ?_, ?_⟩
  · show p.full.bindings = _
    rw [h.bindings_eq]
    exact (NameTable.rename_congr fun slot hslot => hagree (h.sound.binding slot hslot)).symm
  · show p.full.temporaries = _
    rw [h.temporaries_eq]
    apply List.map_congr_left
    intro r hr
    exact (Reference.rename_congr (hagree (h.sound.temporary r hr).isLive)).symm

theorem Mirrored.advanced_arena (h : Mirrored p) {q : Twin Arena} (hq : Arena.Widened p.arena q) :
    Advanced p (p.withArena q) := by
  have hsteps : p.swept.Steps { p.swept with arena := q.swept } :=
    h.sound.steps_arena hq.kept.accounted hq.kept.closed (hq.extended.keeps _)
  refine ⟨hsteps, h.of_arena hsteps.sound hq.mirrored hq.agree, ?_⟩
  intro r hr
  exact hq.agree (h.sound.isLive_of_mem_roots hr)

theorem collect_of_disabled {m : Machine} (h : m.arena.config.reclamation = .disabled) :
    m.collect = ({}, m) := by
  unfold collect
  rw [Arena.collect_of_disabled h]

theorem Mirrored.advanced_collect (h : Mirrored p) :
    Advanced p ⟨p.image, p.swept.collect.2, p.full.collect.2⟩ := by
  rw [collect_of_disabled h.arena.disabled]
  exact ⟨h.sound.steps_collect, ⟨h.sound.steps_collect.sound, h.arena.collect _, h.bindings_eq,
    h.temporaries_eq⟩, fun _ _ => rfl⟩

theorem Mirrored.advanced_holding (h : Mirrored p) {o : Outcome} (ho : o.ValidIn p.swept.arena) :
    Advanced p ⟨p.image, p.swept.holding o.held, p.full.holding (o.rename p.image).held⟩ := by
  have hsteps : p.swept.Steps (p.swept.holding o.held) :=
    h.sound.steps_holding fun r => Outcome.reference_validIn ho
  refine ⟨hsteps, ⟨hsteps.sound, h.arena, h.bindings_eq, ?_⟩, fun _ _ => rfl⟩
  show (o.rename p.image).held ++ p.full.temporaries = (o.held ++ p.swept.temporaries).map _
  rw [Outcome.held_rename, h.temporaries_eq, List.map_append]

theorem Mirrored.release (h : Mirrored p) (depth : Nat) : Mirrored (p.release depth) := by
  refine ⟨h.sound.release depth, h.arena, h.bindings_eq, ?_⟩
  show p.full.temporaries.drop _ = (p.swept.temporaries.drop _).map (Reference.rename p.image)
  rw [h.temporaries_eq, List.length_map, List.map_drop]

theorem Mirrored.length_temporaries (h : Mirrored p) :
    p.full.temporaries.length = p.swept.temporaries.length := by
  rw [h.temporaries_eq, List.length_map]

/-- An outcome that is held stays valid and keeps its image. -/
theorem Advanced.outcome {o : Outcome} {full : Machine}
    (h : Advanced ⟨p.image, p.swept.holding o.held, full⟩ q) (ho : o.ValidIn p.swept.arena) :
    o.ValidIn q.swept.arena ∧ o.rename q.image = o.rename p.image := by
  constructor
  · exact h.steps.outcome_validIn ho
  · apply Outcome.rename_congr
    intro r hr
    exact h.agree r (List.mem_append_right _ (List.mem_append_left _ hr))

end Machine

namespace MachineM

open Machine (Mirrored Advanced)

variable {p : Twin Machine}

/-- A valid outcome and, unless nobody looks at it, its image. -/
def Matched (discarded : Bool) (o o' : Outcome) (q : Twin Machine) : Prop :=
  o.ValidIn q.swept.arena ∧ (discarded = false → o' = o.rename q.image)

/-! ### Operations that change nothing -/

theorem follows_lookup (h : Mirrored p) (name : String) :
    Follows Advanced (·.isFatal) (lookup name) (lookup name) p
      (fun slot slot' q => q = p ∧ slot ∈ p.swept.bindings.slots ∧ slot' = p.image slot) := by
  have hfull : p.full.bindings.get? name = (p.swept.bindings.get? name).map p.image := by
    rw [h.bindings_eq, NameTable.get?_rename]
  cases hname : p.swept.bindings.get? name with
  | some slot =>
    rw [hname, Option.map_some] at hfull
    exact follows_of_ok p.image (lookup_eq_ok hname) (lookup_eq_ok hfull) h.advanced_refl
      ⟨rfl, NameTable.mem_slots_of_get? hname, rfl⟩
  | none =>
    rw [hname, Option.map_none] at hfull
    exact follows_of_error p.image (lookup_eq_error hname) (lookup_eq_error hfull) h.advanced_refl

theorem follows_checkBase (h : Mirrored p) (base : Value) (property : String) :
    Follows Advanced (·.isFatal) (checkBase base property) (checkBase (base.rename p.image) property)
      p (fun _ _ q => q = p) := by
  unfold checkBase
  rw [Value.isNullish_rename, Value.kind_rename]
  split
  · exact follows_throw h.advanced_refl
  · exact follows_pure h.advanced_refl rfl

theorem follows_resolve (h : Mirrored p) {o : Outcome} (ho : o.ValidIn p.swept.arena) :
    Follows Advanced (·.isFatal) (resolve o) (resolve (o.rename p.image)) p
      (fun v v' q => q = p ∧ v.ValidIn p.swept.arena ∧ v' = v.rename p.image) := by
  obtain ⟨v, hv, hvalid, hv'⟩ := h.arena.resolve ho
  exact follows_of_ok p.image (reading_eq_ok hv) (reading_eq_ok hv') h.advanced_refl
    ⟨rfl, hvalid, rfl⟩

theorem follows_getProperty (h : Mirrored p) {base : Value} (hbase : base.ValidIn p.swept.arena)
    (key : String) (discarded : Bool) :
    Follows Advanced (·.isFatal) (reading (·.getProperty base key))
      (reading (·.getProperty (base.rename p.image) key)) p (Matched discarded) := by
  obtain ⟨o, ho, hvalid, ho'⟩ := h.arena.getProperty hbase key
  exact follows_of_ok p.image (reading_eq_ok ho) (reading_eq_ok ho') h.advanced_refl
    ⟨hvalid, fun _ => rfl⟩

/-! ### Holding and releasing -/

theorem follows_hold (h : Mirrored p) {o : Outcome} (ho : o.ValidIn p.swept.arena) :
    Follows Advanced (·.isFatal) (hold o) (hold (o.rename p.image)) p (fun _ _ q =>
      q = ⟨p.image, p.swept.holding o.held, p.full.holding (o.rename p.image).held⟩) := by
  rw [hold_eq, hold_eq]
  exact follows_of_ok p.image rfl rfl (h.advanced_holding ho) rfl

theorem follows_holdValue (h : Mirrored p) {v : Value} (hv : v.ValidIn p.swept.arena) :
    Follows Advanced (·.isFatal) (holdValue v) (holdValue (v.rename p.image)) p (fun _ _ q =>
      q = ⟨p.image, p.swept.holding (Outcome.fresh v).held,
        p.full.holding ((Outcome.fresh v).rename p.image).held⟩) :=
  follows_hold h (o := .fresh v) hv

theorem follows_releasing (h : Mirrored p) {act act' : MachineM Outcome} {discarded : Bool}
    (hact : Follows Advanced (·.isFatal) act act' p (Matched discarded)) :
    Follows Advanced (·.isFatal) (releasing act) (releasing act') p (Matched discarded) := by
  refine hact.releasing h.length_temporaries ?_ fun _ _ _ ho => ho
  intro q hq
  exact ⟨hq.steps.release, hq.mirrored.release _, hq.agree⟩

/-! ### Evaluation -/

theorem follows_build (h : Mirrored p) {container : NewContainer}
    (hvalid : container.ValidIn p.swept.arena) (discarded : Bool) :
    Follows Advanced (·.isFatal) (Outcome.minted <$> onArena (.build container))
      (Outcome.minted <$> onArena (.build (container.rename p.image))) p (Matched discarded) := by
  have hbuild := (ArenaM.follows_build h.arena hvalid).onArena fun _ => h.advanced_arena
  apply hbuild.map
  rintro id _ q _ ⟨rfl, hid⟩
  exact ⟨hid, fun _ => rfl⟩

theorem follows_callIntrinsic (h : Mirrored p) {intrinsic : Intrinsic} {discarded : Bool}
    (hsteady : discarded = false → intrinsic = .totalAllocations) :
    Follows Advanced (·.isFatal) (Outcome.fresh <$> callIntrinsic intrinsic)
      (Outcome.fresh <$> callIntrinsic intrinsic) p (Matched discarded) := by
  cases intrinsic with
  | liveSlots =>
    exact follows_of_ok p.image rfl rfl h.advanced_refl ⟨trivial, fun hd => Intrinsic.noConfusion (hsteady hd)⟩
  | totalAllocations =>
    refine follows_of_ok p.image rfl rfl h.advanced_refl ⟨trivial, fun _ => ?_⟩
    have htotal : p.full.arena.total = p.swept.arena.total := h.arena.total_eq
    rw [htotal]
    rfl
  | collect =>
    exact follows_of_ok p.image rfl rfl h.advanced_collect ⟨trivial, fun hd => Intrinsic.noConfusion (hsteady hd)⟩

/-- What is shown for all machines by induction. -/
def EvaluatesAlike (discarded : Bool) (e : Expr) : Prop :=
  ∀ {p : Twin Machine}, Mirrored p →
    Follows Advanced (·.isFatal) (eval e) (eval e) p (Matched discarded)

/-- An outcome that somebody looks at may also be discarded. -/
theorem EvaluatesAlike.weaken {e : Expr} (he : EvaluatesAlike false e) (discarded : Bool) :
    EvaluatesAlike discarded e := by
  intro p h
  refine (he h).mono (fun _ hq => hq) ?_
  intro _ _ _ _ ho
  exact ⟨ho.1, fun _ => ho.2 rfl⟩

theorem EvaluatesAlike.value {e : Expr} (he : EvaluatesAlike false e) (h : Mirrored p) :
    Follows Advanced (·.isFatal) (eval e >>= resolve) (eval e >>= resolve) p
      (fun v v' q => v.ValidIn q.swept.arena ∧ v' = v.rename q.image) := by
  apply (he h).bind
  rintro o o' q hq ⟨ho, hmatch⟩
  obtain rfl := hmatch rfl
  refine (follows_resolve hq.mirrored ho).mono (fun _ h => h) ?_
  rintro v v' _ - ⟨rfl, hv, rfl⟩
  exact ⟨hv, rfl⟩

theorem follows_evalElements {elements : List Expr}
    (helements : ∀ element ∈ elements, EvaluatesAlike false element) (h : Mirrored p) :
    Follows Advanced (·.isFatal) (evalElements elements) (evalElements elements) p
      (fun outcomes outcomes' q => (∀ o ∈ outcomes, o.ValidIn q.swept.arena) ∧
        outcomes' = outcomes.map (Outcome.rename q.image)) := by
  induction elements generalizing p with
  | nil =>
    rw [evalElements]
    exact follows_pure h.advanced_refl ⟨List.forall_mem_nil _, rfl⟩
  | cons element rest ih =>
    rw [evalElements]
    apply (helements element List.mem_cons_self h).bind
    rintro o o' q₁ hq₁ ⟨ho, hmatch⟩
    obtain rfl := hmatch rfl
    apply (follows_hold hq₁.mirrored ho).bind
    rintro _ _ _ hq₂ rfl
    have hrest := ih (fun e he => helements e (List.mem_cons_of_mem _ he)) hq₂.mirrored
    apply hrest.bind
    rintro outcomes _ q₃ hq₃ ⟨hvalid, rfl⟩
    obtain ⟨ho₃, hrename⟩ := hq₃.outcome ho
    refine follows_pure hq₃.mirrored.advanced_refl ⟨fun other hother => ?_, ?_⟩
    · rcases List.mem_cons.mp hother with rfl | hother
      · exact ho₃
      · exact hvalid other hother
    · rw [List.map_cons, hrename]

theorem follows_evalMembers {members : List (String × Expr)}
    (hmembers : ∀ member ∈ members, EvaluatesAlike false member.2) (h : Mirrored p) :
    Follows Advanced (·.isFatal) (evalMembers members) (evalMembers members) p
      (fun outcomes outcomes' q => (∀ member ∈ outcomes, member.2.ValidIn q.swept.arena) ∧
        outcomes' = outcomes.map (Prod.map id (Outcome.rename q.image))) := by
  have helements (e : Expr) (he : e ∈ members.map (·.2)) : EvaluatesAlike false e := by
    obtain ⟨member, hmember, rfl⟩ := List.mem_map.mp he
    exact hmembers member hmember
  rw [evalMembers_eq_map]
  apply (follows_evalElements helements h).map
  rintro outcomes _ q _ ⟨hvalid, rfl⟩
  exact ⟨fun member hmember => hvalid _ (List.of_mem_zip hmember).2, List.zip_map_right⟩

theorem follows_evalArguments {arguments : List Expr}
    (harguments : ∀ argument ∈ arguments, EvaluatesAlike true argument) (h : Mirrored p) :
    Follows Advanced (·.isFatal) (evalArguments arguments) (evalArguments arguments) p
      (fun _ _ _ => True) := by
  induction arguments generalizing p with
  | nil =>
    rw [evalArguments]
    exact follows_pure h.advanced_refl trivial
  | cons argument rest ih =>
    rw [evalArguments]
    apply (harguments argument List.mem_cons_self h).bind
    intro _ _ q hq _
    exact ih (fun e he => harguments e (List.mem_cons_of_mem _ he)) hq.mirrored

/-! ### The forms of expressions -/

variable {discarded : Bool} {e left right : Expr}

theorem evaluatesAlike_literal {value : Value} (hvalue : value.handle? = none) :
    EvaluatesAlike discarded (.literal value) := by
  intro p h
  rw [eval_literal]
  refine follows_releasing h (follows_pure h.advanced_refl ⟨?_, fun _ => ?_⟩)
  · exact Value.validIn_of_handle?_eq_none _ hvalue
  · exact congrArg Outcome.fresh (Value.rename_of_handle?_eq_none hvalue).symm

theorem evaluatesAlike_name (name : String) : EvaluatesAlike discarded (.name name) := by
  intro p h
  rw [eval]
  apply follows_releasing h
  cases hname : constant? name with
  | some value =>
    refine follows_pure h.advanced_refl ⟨?_, fun _ => ?_⟩
    · exact Value.validIn_of_handle?_eq_none _ (handle?_of_constant? hname)
    · exact congrArg Outcome.fresh
        (Value.rename_of_handle?_eq_none (handle?_of_constant? hname)).symm
  | none =>
    apply (follows_lookup h name).bind
    rintro slot _ _ hq ⟨rfl, hslot, rfl⟩
    exact follows_pure hq ⟨h.sound.binding slot hslot, fun _ => rfl⟩

theorem EvaluatesAlike.member (he : EvaluatesAlike false e) (property : String) :
    EvaluatesAlike discarded (.member e property) := by
  intro p h
  rw [eval]
  apply follows_releasing h
  apply (he.value h).bind
  rintro base _ q hq ⟨hbase, rfl⟩
  apply (follows_checkBase hq.mirrored base _).bind
  rintro _ _ _ hq' rfl
  exact follows_getProperty hq'.mirrored hbase _ _

/-- The base keeps its image while the key is evaluated, as it is held. -/
theorem EvaluatesAlike.index {key : Expr} (he : EvaluatesAlike false e)
    (hkey : EvaluatesAlike false key) : EvaluatesAlike discarded (.index e key) := by
  intro p h
  rw [eval]
  apply follows_releasing h
  apply (he.value h).bind
  rintro base _ q₁ hq₁ ⟨hbase, rfl⟩
  apply (follows_holdValue hq₁.mirrored hbase).bind
  rintro _ _ _ hq₂ rfl
  apply (hkey.value hq₂.mirrored).bind
  rintro key _ q₃ hq₃ ⟨-, rfl⟩
  obtain ⟨hbase₃, hrename⟩ := hq₃.outcome hbase
  rw [← Outcome.fresh.inj hrename, Value.toText_rename]
  apply (follows_checkBase hq₃.mirrored base _).bind
  rintro _ _ _ hq₄ rfl
  exact follows_getProperty hq₄.mirrored hbase₃ _ _

theorem evaluatesAlike_object {members : List (String × Expr)}
    (hmembers : ∀ member ∈ members, EvaluatesAlike false member.2) :
    EvaluatesAlike discarded (.object members) := by
  intro p h
  rw [eval]
  apply follows_releasing h
  apply (follows_evalMembers hmembers h).bind
  rintro outcomes _ q hq ⟨hvalid, rfl⟩
  have hobject : NewContainer.ValidIn q.swept.arena (.object outcomes) := hvalid
  rw [bind_pure_comp, bind_pure_comp]
  exact follows_build hq.mirrored hobject _

theorem evaluatesAlike_array {elements : List Expr}
    (helements : ∀ element ∈ elements, EvaluatesAlike false element) :
    EvaluatesAlike discarded (.array elements) := by
  intro p h
  rw [eval]
  apply follows_releasing h
  apply (follows_evalElements helements h).bind
  rintro outcomes _ q hq ⟨hvalid, rfl⟩
  have harray : NewContainer.ValidIn q.swept.arena (.array outcomes) := hvalid
  rw [bind_pure_comp, bind_pure_comp]
  exact follows_build hq.mirrored harray _

theorem evaluatesAlike_function (parameters : List String) (code : Nat) :
    EvaluatesAlike discarded (.function parameters code) := by
  intro p h
  rw [eval, bind_pure_comp]
  exact follows_releasing h (follows_build h (NewContainer.validIn_function _ _ _ _) _)

theorem EvaluatesAlike.unary (he : EvaluatesAlike false e) (op : UnaryOp) :
    EvaluatesAlike discarded (.unary op e) := by
  intro p h
  rw [eval]
  apply follows_releasing h
  apply (he.value h).bind
  rintro v _ q hq ⟨-, rfl⟩
  refine follows_pure hq.mirrored.advanced_refl ⟨?_, fun _ => ?_⟩
  · exact Value.validIn_of_handle?_eq_none _ (UnaryOp.handle?_apply op v)
  · exact congrArg Outcome.fresh (UnaryOp.apply_rename op v)

/-- Handles are compared by their slots, and the renaming is injective on live ones. -/
theorem EvaluatesAlike.binary (hleft : EvaluatesAlike false left)
    (hright : EvaluatesAlike false right) (op : BinaryOp) :
    EvaluatesAlike discarded (.binary op left right) := by
  intro p h
  rw [eval]
  apply follows_releasing h
  apply (hleft.value h).bind
  rintro v _ q₁ hq₁ ⟨hv, rfl⟩
  apply (follows_holdValue hq₁.mirrored hv).bind
  rintro _ _ _ hq₂ rfl
  apply (hright.value hq₂.mirrored).bind
  rintro w _ q₃ hq₃ ⟨hw, rfl⟩
  obtain ⟨hv₃, hrename⟩ := hq₃.outcome hv
  refine follows_pure hq₃.mirrored.advanced_refl ⟨?_, fun _ => ?_⟩
  · exact Value.validIn_of_handle?_eq_none _ (BinaryOp.handle?_apply op v w)
  · rw [← Outcome.fresh.inj hrename]
    apply congrArg Outcome.fresh
    apply BinaryOp.apply_rename
    intro i j hi hj heq
    exact hq₃.mirrored.arena.injective (Value.ValidIn.isLive hv₃ hi) (hw.isLive hj) heq

theorem EvaluatesAlike.and (hleft : EvaluatesAlike false left)
    (hright : EvaluatesAlike false right) : EvaluatesAlike discarded (.and left right) := by
  intro p h
  rw [eval]
  apply follows_releasing h
  apply (hleft h).bind
  rintro o o' q hq ⟨ho, hmatch⟩
  obtain rfl := hmatch rfl
  apply (follows_resolve hq.mirrored ho).bind
  rintro v _ _ hq' ⟨rfl, -, rfl⟩
  rw [Value.toBoolean_rename]
  split
  · exact hright.weaken _ hq'.mirrored
  · exact follows_pure hq' ⟨ho, fun _ => rfl⟩

theorem EvaluatesAlike.or (hleft : EvaluatesAlike false left)
    (hright : EvaluatesAlike false right) : EvaluatesAlike discarded (.or left right) := by
  intro p h
  rw [eval]
  apply follows_releasing h
  apply (hleft h).bind
  rintro o o' q hq ⟨ho, hmatch⟩
  obtain rfl := hmatch rfl
  apply (follows_resolve hq.mirrored ho).bind
  rintro v _ _ hq' ⟨rfl, -, rfl⟩
  rw [Value.toBoolean_rename]
  split
  · exact follows_pure hq' ⟨ho, fun _ => rfl⟩
  · exact hright.weaken _ hq'.mirrored

theorem evaluatesAlike_call {callee : String} {arguments : List Expr}
    (hcallee : discarded = false →
      callee ≠ Intrinsic.collect.name ∧ callee ≠ Intrinsic.liveSlots.name)
    (harguments : ∀ argument ∈ arguments, EvaluatesAlike true argument) :
    EvaluatesAlike discarded (.call callee arguments) := by
  intro p h
  rw [eval]
  apply follows_releasing h
  cases hname : Intrinsic.ofName? callee with
  | none => exact follows_throw h.advanced_refl
  | some intrinsic =>
    apply (follows_evalArguments harguments h).bind
    intro _ _ q hq _
    rw [bind_pure_comp]
    apply follows_callIntrinsic hq.mirrored
    intro hd
    have heq := Intrinsic.name_of_ofName? hname
    obtain ⟨hcollect, hliveSlots⟩ := hcallee hd
    cases intrinsic with
    | liveSlots => exact absurd heq.symm hliveSlots
    | totalAllocations => rfl
    | collect => exact absurd heq.symm hcollect

/-- **A steady expression evaluates alike** on machines that mirror each other. -/
theorem evaluatesAlike (he : e.Steady discarded) : EvaluatesAlike discarded e := by
  induction he with
  | literal hvalue => exact evaluatesAlike_literal hvalue
  | name name => exact evaluatesAlike_name name
  | member _ ih => exact EvaluatesAlike.member ih _
  | index _ _ ihbase ihkey => exact EvaluatesAlike.index ihbase ihkey
  | object _ ih => exact evaluatesAlike_object ih
  | array _ ih => exact evaluatesAlike_array ih
  | function parameters code => exact evaluatesAlike_function parameters code
  | unary _ ih => exact EvaluatesAlike.unary ih _
  | binary _ _ ihleft ihright => exact EvaluatesAlike.binary ihleft ihright _
  | and _ _ ihleft ihright => exact EvaluatesAlike.and ihleft ihright
  | or _ _ ihleft ihright => exact EvaluatesAlike.or ihleft ihright
  | call hcallee _ ih => exact evaluatesAlike_call hcallee ih

end MachineM

end SlotScript
