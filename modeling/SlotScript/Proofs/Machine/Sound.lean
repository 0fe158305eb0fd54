import SlotScript.Proofs.Arena.Frame
import SlotScript.Proofs.Machine.Session

/-!
# Evaluation and what is in flight

A collection can run in the middle of an expression, so what an evaluation has in hand must be among
the roots whenever another operand is evaluated. `Machine.Sound` says that everything a machine refers
to leads somewhere, and `Machine.Steps` what an evaluation does to a machine: the bindings stay, and so
does all that the bindings and the temporaries lead to. A value whose handle is held therefore stays
valid (`Steps.outcome_validIn`), and `endsVia_eval` follows by induction on the expression.
-/

namespace SlotScript

/-- An internal error of the arena. -/
def MachineError.isInternal : MachineError → Bool
  | arena e => e.isInternal
  | _ => false

/-- The references that keep a value valid. -/
def Value.held (v : Value) : List Reference := (v.handle?.map Reference.handle).toList

/-- The references that keep an outcome valid. -/
def Outcome.held : Outcome → List Reference
  | .fresh value => value.held
  | .aliased slot | .minted slot => [.slot slot]

theorem Value.mem_held {v : Value} {r : Reference} :
    r ∈ v.held ↔ ∃ owner, v.handle? = some owner ∧ r = .handle owner := by
  unfold held
  cases v.handle? <;> simp

theorem Reference.ValidIn.isLive {r : Reference} {a : Arena} (h : r.ValidIn a) : a.isLive r.id := by
  cases r with
  | slot id => exact h
  | handle id =>
    obtain ⟨shape, hshape⟩ := Option.isSome_iff_exists.mp h
    exact Arena.isLive_of_shape? hshape

theorem Outcome.reference_validIn {o : Outcome} {a : Arena} (h : o.ValidIn a) {r : Reference}
    (hr : r ∈ o.held) : r.ValidIn a := by
  cases o with
  | fresh value =>
    obtain ⟨owner, howner, rfl⟩ := Value.mem_held.mp hr
    obtain ⟨slot, body, hslot, hbody⟩ := Value.ValidIn.body h howner
    show (a.shape? owner).isSome
    rw [Arena.shape?, hslot, Option.bind_some, hbody]
    rfl
  | aliased slot =>
    obtain rfl := List.mem_singleton.mp hr
    exact h
  | minted slot =>
    obtain rfl := List.mem_singleton.mp hr
    exact h

theorem Arena.Keeps.outcome_validIn {a a' : Arena} {roots : List Reference}
    (h : a.Keeps roots a') {o : Outcome} (ho : o.ValidIn a) (hheld : o.held ⊆ roots) :
    o.ValidIn a' := by
  cases o with
  | fresh value =>
    exact h.value_validIn ho fun owner howner => hheld (Value.mem_held.mpr ⟨owner, howner, rfl⟩)
  | aliased slot => exact h.isLive (.root (hheld (List.mem_singleton_self _)) ho)
  | minted slot => exact h.isLive (.root (hheld (List.mem_singleton_self _)) ho)

namespace Machine

/-- The arena is in order, and all that the machine refers to leads somewhere. -/
structure Sound (m : Machine) : Prop where
  accounted : m.arena.Accounted
  closed : m.arena.Closed
  binding : ∀ slot ∈ m.bindings.slots, m.arena.isLive slot
  temporary : ∀ r ∈ m.temporaries, r.ValidIn m.arena

/-- What an evaluation does to a machine. It may hold more, and it keeps what the machine refers
to. -/
structure Steps (m m' : Machine) : Prop where
  sound : m'.Sound
  bindings_eq : m'.bindings = m.bindings
  suffix : m.temporaries <:+ m'.temporaries
  keeps : m.arena.Keeps m.roots m'.arena

/-- The machine with more references held. -/
def holding (m : Machine) (held : List Reference) : Machine :=
  { m with temporaries := held ++ m.temporaries }

variable {m m' : Machine}

theorem sound_new (config : MachineConfig) : (new config).Sound where
  accounted := Arena.accounted_new config.arena
  closed := by
    have hempty (id : SlotId) : (new config).arena.get? id = none := by simp [new, Arena.get?]
    constructor
    · intro id slot hslot
      rw [hempty] at hslot
      cases hslot
    · intro id slot body hslot
      rw [hempty] at hslot
      cases hslot
  binding := List.forall_mem_nil _
  temporary := List.forall_mem_nil _

theorem Sound.steps_refl (h : m.Sound) : m.Steps m :=
  ⟨h, rfl, List.suffix_refl _, .refl _ _⟩

theorem Steps.roots_subset (h : m.Steps m') : m.roots ⊆ m'.roots := by
  intro r hr
  unfold roots at hr ⊢
  rw [h.bindings_eq]
  rcases List.mem_append.mp hr with hbinding | htemporary
  · exact List.mem_append_left _ hbinding
  · exact List.mem_append_right _ (h.suffix.subset htemporary)

instance : IsTrans Machine Steps where
  trans _ _ _ h h' :=
    ⟨h'.sound, h'.bindings_eq.trans h.bindings_eq, h.suffix.trans h'.suffix,
      h.keeps.trans h'.keeps h.roots_subset⟩

theorem slot_mem_roots {slot : SlotId} (h : slot ∈ m.bindings.slots) : .slot slot ∈ m.roots :=
  List.mem_append_left _ (List.mem_map_of_mem h)

theorem Sound.isLive_of_mem_roots (h : m.Sound) {r : Reference} (hr : r ∈ m.roots) :
    m.arena.isLive r.id := by
  rcases List.mem_append.mp hr with hbinding | htemporary
  · obtain ⟨slot, hslot, rfl⟩ := List.mem_map.mp hbinding
    exact h.binding slot hslot
  · exact (h.temporary r htemporary).isLive

theorem Sound.steps_arena (h : m.Sound) {arena : Arena} (haccounted : arena.Accounted)
    (hclosed : arena.Closed) (hkeeps : m.arena.Keeps m.roots arena) :
    m.Steps { m with arena } := by
  refine ⟨⟨haccounted, hclosed, ?_, ?_⟩, rfl, List.suffix_refl _, hkeeps⟩
  · intro slot hslot
    exact hkeeps.isLive (.root (slot_mem_roots hslot) (h.binding slot hslot))
  · intro r hr
    exact hkeeps.reference_validIn (h.temporary r hr) (List.mem_append_right _ hr)

/-- A write keeps a machine sound, although values change. -/
theorem Sound.of_kept (h : m.Sound) {arena : Arena} (hkept : m.arena.Kept arena) :
    Sound { m with arena } :=
  ⟨hkept.accounted, hkept.closed, fun slot hslot => hkept.isLive (h.binding slot hslot),
    fun r hr => hkept.reference_validIn (h.temporary r hr)⟩

theorem Sound.insert (h : m.Sound) (name : String) {slot : SlotId} (hslot : m.arena.isLive slot) :
    Sound { m with bindings := m.bindings.insert name slot } := by
  refine ⟨h.accounted, h.closed, ?_, h.temporary⟩
  intro other hother
  rcases NameTable.mem_slots_insert hother with rfl | hold
  · exact hslot
  · exact h.binding other hold

theorem Sound.erase (h : m.Sound) (name : String) :
    Sound { m with bindings := (m.bindings.getThenErase name).2 } :=
  ⟨h.accounted, h.closed, fun slot hslot => h.binding slot (NameTable.mem_slots_getThenErase hslot),
    h.temporary⟩

theorem Sound.steps_collect (h : m.Sound) : m.Steps m.collect.2 :=
  h.steps_arena (h.accounted.collect _).accounted (h.closed.collect _)
    (Arena.keeps_collect _ (List.Subset.refl _))

theorem Sound.steps_holding (h : m.Sound) {held : List Reference}
    (hheld : ∀ r ∈ held, r.ValidIn m.arena) : m.Steps (m.holding held) := by
  refine ⟨⟨h.accounted, h.closed, h.binding, ?_⟩, rfl, List.suffix_append _ _, .refl _ _⟩
  intro r hr
  rcases List.mem_append.mp hr with hr | hr
  · exact hheld r hr
  · exact h.temporary r hr

theorem Steps.release_temporaries (h : m.Steps m') :
    (m'.release m.temporaries.length).temporaries = m.temporaries :=
  (List.suffix_iff_eq_drop.mp h.suffix).symm

theorem Sound.release (h : m.Sound) (depth : Nat) : (m.release depth).Sound :=
  ⟨h.accounted, h.closed, h.binding, fun r hr => h.temporary r (List.mem_of_mem_drop hr)⟩

theorem Steps.release (h : m.Steps m') : m.Steps (m'.release m.temporaries.length) := by
  refine ⟨h.sound.release _, h.bindings_eq, ?_, h.keeps⟩
  rw [h.release_temporaries]

/-- An outcome that is held stays valid. -/
theorem Steps.outcome_validIn {o : Outcome} (h : (m.holding o.held).Steps m')
    (ho : o.ValidIn m.arena) : o.ValidIn m'.arena :=
  h.keeps.outcome_validIn ho fun _ hr => List.mem_append_right _ (List.mem_append_left _ hr)

end Machine

namespace MachineM

open Machine (Steps)

variable {m : Machine}

/-! ### Operations that change nothing -/

theorem endsVia_lookup (h : m.Sound) (name : String) :
    EndsVia Steps (lookup name) m
      (fun slot m' => m' = m ∧ slot ∈ m.bindings.slots) (¬ ·.isInternal) := by
  cases hname : m.bindings.get? name with
  | some slot =>
    exact endsVia_of_ok (lookup_eq_ok hname) h.steps_refl ⟨rfl, NameTable.mem_slots_of_get? hname⟩
  | none => exact endsVia_of_error (lookup_eq_error hname) h.steps_refl Bool.false_ne_true

theorem endsVia_checkBase (h : m.Sound) (base : Value) (property : String) :
    EndsVia Steps (checkBase base property) m (fun _ m' => m' = m) (¬ ·.isInternal) := by
  unfold checkBase
  split
  · exact endsVia_throw h.steps_refl Bool.false_ne_true
  · exact endsVia_pure h.steps_refl rfl

theorem endsVia_resolve (h : m.Sound) {o : Outcome} (ho : o.ValidIn m.arena) :
    EndsVia Steps (resolve o) m (fun v m' => m' = m ∧ v.ValidIn m.arena) (¬ ·.isInternal) := by
  obtain ⟨v, hv, hvalid⟩ := h.closed.resolve ho
  exact endsVia_of_ok (reading_eq_ok hv) h.steps_refl ⟨rfl, hvalid⟩

theorem endsVia_getProperty (h : m.Sound) {base : Value} (hbase : base.ValidIn m.arena)
    (key : String) :
    EndsVia Steps (reading (·.getProperty base key)) m (fun o m' => o.ValidIn m'.arena)
      (¬ ·.isInternal) := by
  obtain ⟨o, ho, hvalid⟩ := h.closed.getProperty hbase key
  exact endsVia_of_ok (reading_eq_ok ho) h.steps_refl hvalid

/-! ### Holding and releasing -/

theorem holdValue_eq (v : Value) : holdValue v = modify (·.holding v.held) := by
  cases v <;> rfl

theorem hold_eq (o : Outcome) : hold o = modify (·.holding o.held) := by
  cases o with
  | fresh value => exact holdValue_eq value
  | aliased slot => rfl
  | minted slot => rfl

theorem endsVia_hold (h : m.Sound) {o : Outcome} (ho : o.ValidIn m.arena) :
    EndsVia Steps (hold o) m (fun _ m' => m' = m.holding o.held) (¬ ·.isInternal) := by
  rw [hold_eq]
  exact endsVia_modify (h.steps_holding fun r => Outcome.reference_validIn ho) rfl

theorem endsVia_holdValue (h : m.Sound) {v : Value} (hv : v.ValidIn m.arena) :
    EndsVia Steps (holdValue v) m (fun _ m' => m' = m.holding (Outcome.fresh v).held)
      (¬ ·.isInternal) := endsVia_hold h (o := .fresh v) hv

/-- What is held in between is released; the outcome does not depend on it. -/
theorem endsVia_releasing {act : MachineM Outcome}
    (h : EndsVia Steps act m (fun o m' => o.ValidIn m'.arena) (¬ ·.isInternal)) :
    EndsVia Steps (releasing act) m (fun o m' => o.ValidIn m'.arena) (¬ ·.isInternal) := by
  unfold EndsVia
  rw [ends_releasing]
  refine Ends.mono h ?_ ?_
  · rintro o m' ⟨hsteps, ho⟩
    exact ⟨hsteps.release, ho⟩
  · rintro e m' ⟨hsteps, he⟩
    exact ⟨hsteps.release, he⟩

/-! ### Evaluation -/

/-- Adding slots keeps all that the machine refers to. -/
theorem endsVia_onArena (h : m.Sound) {act : ArenaM SlotId}
    (hact : EndsVia Arena.Extended act m.arena (fun id arena => arena.isLive id) (·.isFatal)) :
    EndsVia Steps (onArena act) m (fun id m' => m'.arena.isLive id) (¬ ·.isInternal) := by
  unfold EndsVia
  rw [ends_onArena]
  refine Ends.mono hact ?_ ?_
  · rintro id arena ⟨hext, hid⟩
    exact ⟨h.steps_arena hext.accounted hext.closed (hext.keeps _), hid⟩
  · rintro e arena ⟨hext, he⟩
    exact ⟨h.steps_arena hext.accounted hext.closed (hext.keeps _),
      ArenaError.not_isInternal_of_isFatal he⟩

theorem endsVia_build (h : m.Sound) {container : NewContainer}
    (hvalid : container.ValidIn m.arena) :
    EndsVia Steps (Outcome.minted <$> onArena (.build container)) m
      (fun o m' => o.ValidIn m'.arena) (¬ ·.isInternal) :=
  (endsVia_onArena h (ArenaM.endsVia_build h.accounted h.closed hvalid)).map fun _ _ _ hid => hid

theorem endsVia_callIntrinsic (h : m.Sound) (intrinsic : Intrinsic) :
    EndsVia Steps (callIntrinsic intrinsic) m (fun v m' => v.ValidIn m'.arena)
      (¬ ·.isInternal) := by
  cases intrinsic with
  | liveSlots => exact endsVia_of_ok rfl h.steps_refl trivial
  | totalAllocations => exact endsVia_of_ok rfl h.steps_refl trivial
  | collect => exact endsVia_of_ok rfl h.steps_collect trivial

/-- What is shown for every machine by induction. -/
def Evaluates (e : Expr) : Prop :=
  ∀ {m : Machine}, m.Sound →
    EndsVia Steps (eval e) m (fun o m' => o.ValidIn m'.arena) (¬ ·.isInternal)

theorem Evaluates.value {e : Expr} (he : Evaluates e) (h : m.Sound) :
    EndsVia Steps (eval e >>= resolve) m (fun v m' => v.ValidIn m'.arena) (¬ ·.isInternal) := by
  apply (he h).bind
  intro o m₁ hsteps ho
  refine (endsVia_resolve hsteps.sound ho).mono (fun _ h => h) ?_ fun _ he => he
  rintro v _ - ⟨rfl, hv⟩
  exact hv

/-- The outcomes of elements stay valid while the others are evaluated, as they are held. -/
theorem endsVia_evalElements {elements : List Expr}
    (helements : ∀ element ∈ elements, Evaluates element) (h : m.Sound) :
    EndsVia Steps (evalElements elements) m
      (fun outcomes m' => ∀ o ∈ outcomes, o.ValidIn m'.arena) (¬ ·.isInternal) := by
  induction elements generalizing m with
  | nil =>
    rw [evalElements]
    exact endsVia_pure h.steps_refl (List.forall_mem_nil _)
  | cons element rest ih =>
    rw [evalElements]
    apply (helements element List.mem_cons_self h).bind
    intro o m₁ hsteps₁ ho
    apply (endsVia_hold hsteps₁.sound ho).bind
    rintro _ _ hsteps₂ rfl
    have hrest := ih (fun e he => helements e (List.mem_cons_of_mem _ he)) hsteps₂.sound
    apply hrest.bind
    intro outcomes m₃ hsteps₃ houtcomes
    apply endsVia_pure hsteps₃.sound.steps_refl
    intro other hother
    rcases List.mem_cons.mp hother with rfl | hother
    · exact hsteps₃.outcome_validIn ho
    · exact houtcomes other hother

theorem endsVia_evalMembers {members : List (String × Expr)}
    (hmembers : ∀ member ∈ members, Evaluates member.2) (h : m.Sound) :
    EndsVia Steps (evalMembers members) m
      (fun outcomes m' => ∀ member ∈ outcomes, member.2.ValidIn m'.arena) (¬ ·.isInternal) := by
  rw [evalMembers_eq_map]
  refine EndsVia.map (endsVia_evalElements (fun e he => ?_) h) fun outcomes m' _ houtcomes member
    hmember => houtcomes _ (List.of_mem_zip hmember).2
  obtain ⟨member, hmember, rfl⟩ := List.mem_map.mp he
  exact hmembers member hmember

theorem endsVia_evalArguments {arguments : List Expr}
    (harguments : ∀ argument ∈ arguments, Evaluates argument) (h : m.Sound) :
    EndsVia Steps (evalArguments arguments) m (fun _ _ => True) (¬ ·.isInternal) := by
  induction arguments generalizing m with
  | nil =>
    rw [evalArguments]
    exact endsVia_pure h.steps_refl trivial
  | cons argument rest ih =>
    rw [evalArguments]
    apply (harguments argument List.mem_cons_self h).bind
    intro _ m₁ hsteps _
    exact ih (fun e he => harguments e (List.mem_cons_of_mem _ he)) hsteps.sound

/-! ### The forms of expressions -/

variable {e left right : Expr}

theorem evaluates_literal {value : Value} (hvalue : value.handle? = none) :
    Evaluates (.literal value) := by
  intro m h
  rw [eval_literal]
  exact endsVia_releasing (endsVia_pure h.steps_refl (Value.validIn_of_handle?_eq_none _ hvalue))

theorem evaluates_name (name : String) : Evaluates (.name name) := by
  intro m h
  rw [eval]
  apply endsVia_releasing
  cases hname : constant? name with
  | some value =>
    exact endsVia_pure h.steps_refl
      (Value.validIn_of_handle?_eq_none _ (handle?_of_constant? hname))
  | none =>
    apply (endsVia_lookup h name).bind
    rintro slot _ hsteps ⟨rfl, hslot⟩
    exact endsVia_pure hsteps (h.binding slot hslot)

theorem Evaluates.member (he : Evaluates e) (property : String) :
    Evaluates (.member e property) := by
  intro m h
  rw [eval]
  apply endsVia_releasing
  apply (he.value h).bind
  intro base m₁ hsteps hbase
  apply (endsVia_checkBase hsteps.sound base _).bind
  rintro _ _ hsteps₂ rfl
  exact endsVia_getProperty hsteps₂.sound hbase _

/-- The base is held while the key is evaluated. -/
theorem Evaluates.index {key : Expr} (he : Evaluates e) (hkey : Evaluates key) :
    Evaluates (.index e key) := by
  intro m h
  rw [eval]
  apply endsVia_releasing
  apply (he.value h).bind
  intro base m₁ hsteps₁ hbase
  apply (endsVia_holdValue hsteps₁.sound hbase).bind
  rintro _ _ hsteps₂ rfl
  apply (hkey.value hsteps₂.sound).bind
  intro key m₃ hsteps₃ _
  apply (endsVia_checkBase hsteps₃.sound base _).bind
  rintro _ _ hsteps₄ rfl
  exact endsVia_getProperty hsteps₄.sound (hsteps₃.outcome_validIn hbase) _

theorem evaluates_object {members : List (String × Expr)}
    (hmembers : ∀ member ∈ members, Evaluates member.2) : Evaluates (.object members) := by
  intro m h
  rw [eval]
  apply endsVia_releasing
  apply (endsVia_evalMembers hmembers h).bind
  intro outcomes m₁ hsteps hvalid
  rw [bind_pure_comp]
  exact endsVia_build hsteps.sound hvalid

theorem evaluates_array {elements : List Expr}
    (helements : ∀ element ∈ elements, Evaluates element) : Evaluates (.array elements) := by
  intro m h
  rw [eval]
  apply endsVia_releasing
  apply (endsVia_evalElements helements h).bind
  intro outcomes m₁ hsteps hvalid
  rw [bind_pure_comp]
  exact endsVia_build hsteps.sound hvalid

theorem evaluates_function (parameters : List String) (code : Nat) :
    Evaluates (.function parameters code) := by
  intro m h
  rw [eval, bind_pure_comp]
  exact endsVia_releasing (endsVia_build h (NewContainer.validIn_function _ _ _ _))

theorem Evaluates.unary (he : Evaluates e) (op : UnaryOp) : Evaluates (.unary op e) := by
  intro m h
  rw [eval]
  apply endsVia_releasing
  apply (he.value h).bind
  intro v m₁ hsteps _
  exact endsVia_pure hsteps.sound.steps_refl
    (Value.validIn_of_handle?_eq_none _ (UnaryOp.handle?_apply op v))

theorem Evaluates.binary (hleft : Evaluates left) (hright : Evaluates right) (op : BinaryOp) :
    Evaluates (.binary op left right) := by
  intro m h
  rw [eval]
  apply endsVia_releasing
  apply (hleft.value h).bind
  intro v m₁ hsteps₁ hv
  apply (endsVia_holdValue hsteps₁.sound hv).bind
  rintro _ _ hsteps₂ rfl
  apply (hright.value hsteps₂.sound).bind
  intro w m₃ hsteps₃ _
  exact endsVia_pure hsteps₃.sound.steps_refl
    (Value.validIn_of_handle?_eq_none _ (BinaryOp.handle?_apply op v w))

theorem Evaluates.and (hleft : Evaluates left) (hright : Evaluates right) :
    Evaluates (.and left right) := by
  intro m h
  rw [eval]
  apply endsVia_releasing
  apply (hleft h).bind
  intro o m₁ hsteps₁ ho
  apply (endsVia_resolve hsteps₁.sound ho).bind
  rintro v _ hsteps₂ ⟨rfl, -⟩
  split
  · exact hright hsteps₁.sound
  · exact endsVia_pure hsteps₂ ho

theorem Evaluates.or (hleft : Evaluates left) (hright : Evaluates right) :
    Evaluates (.or left right) := by
  intro m h
  rw [eval]
  apply endsVia_releasing
  apply (hleft h).bind
  intro o m₁ hsteps₁ ho
  apply (endsVia_resolve hsteps₁.sound ho).bind
  rintro v _ hsteps₂ ⟨rfl, -⟩
  split
  · exact endsVia_pure hsteps₂ ho
  · exact hright hsteps₁.sound

theorem evaluates_call (callee : String) {arguments : List Expr}
    (harguments : ∀ argument ∈ arguments, Evaluates argument) :
    Evaluates (.call callee arguments) := by
  intro m h
  rw [eval]
  apply endsVia_releasing
  split
  · exact endsVia_throw h.steps_refl Bool.false_ne_true
  · apply (endsVia_evalArguments harguments h).bind
    intro _ m₁ hsteps _
    rw [bind_pure_comp]
    exact (endsVia_callIntrinsic hsteps.sound _).map fun _ _ _ hv => hv

/-- **Evaluating a plain expression** keeps all that the machine refers to, and does not fail because
of a reference that leads nowhere. -/
theorem endsVia_eval (he : e.Plain) : Evaluates e := by
  induction he with
  | literal hvalue => exact evaluates_literal hvalue
  | name name => exact evaluates_name name
  | member _ ih => exact Evaluates.member ih _
  | index _ _ ihbase ihkey => exact Evaluates.index ihbase ihkey
  | object _ ih => exact evaluates_object ih
  | array _ ih => exact evaluates_array ih
  | function parameters code => exact evaluates_function parameters code
  | unary _ ih => exact Evaluates.unary ih _
  | binary _ _ ihleft ihright => exact Evaluates.binary ihleft ihright _
  | and _ _ ihleft ihright => exact Evaluates.and ihleft ihright
  | or _ _ ihleft ihright => exact Evaluates.or ihleft ihright
  | call _ ih => exact evaluates_call _ ih

end MachineM

end SlotScript
