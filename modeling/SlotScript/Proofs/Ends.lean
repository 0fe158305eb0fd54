import SlotScript.Machine.Statement
import Mathlib.Order.Defs.Unbundled

/-!
# Ends of operations

An operation of the arena or of the machine ends in a result or in an error, and in both ends it
leaves a state behind. `Ends` says what holds in the two ends, with one equation for each way in which
operations are put together, so that a specification is taken apart along the text of the operation.

`EndsVia` is the case of a transitive relation that leads from the first state to the last, in both
ends; `Always` says no more than that. What every step of an operation does to the state, the whole
operation does.
-/

namespace SlotScript

/-- `act`, run from `s`, ends in a result where `ok` holds, or in an error where `error` holds. -/
def Ends {ε σ α : Type} (act : EStateM ε σ α) (s : σ) (ok : α → σ → Prop) (error : ε → σ → Prop) :
    Prop :=
  match act s with
  | .ok x s' => ok x s'
  | .error e s' => error e s'

section

variable {ε σ α β : Type} {act : EStateM ε σ α} {s : σ} {ok ok' : α → σ → Prop}
  {error error' : ε → σ → Prop}

theorem Ends.mono (h : Ends act s ok error) (hok : ∀ x s', ok x s' → ok' x s')
    (herror : ∀ e s', error e s' → error' e s') : Ends act s ok' error' := by
  unfold Ends at h ⊢
  cases hact : act s with
  | ok x s' => rw [hact] at h; exact hok x s' h
  | error e s' => rw [hact] at h; exact herror e s' h

theorem Ends.and (h : Ends act s ok error) (h' : Ends act s ok' error') :
    Ends act s (fun x s' => ok x s' ∧ ok' x s') (fun e s' => error e s' ∧ error' e s') := by
  unfold Ends at h h' ⊢
  cases hact : act s with
  | ok x s' => rw [hact] at h h'; exact ⟨h, h'⟩
  | error e s' => rw [hact] at h h'; exact ⟨h, h'⟩

/-- The end that the operation has. -/
theorem ends_ok {x : α} {s' : σ} (hact : act s = .ok x s') : Ends act s ok error ↔ ok x s' := by
  unfold Ends; rw [hact]

theorem ends_error {e : ε} {s' : σ} (hact : act s = .error e s') :
    Ends act s ok error ↔ error e s' := by
  unfold Ends; rw [hact]

@[simp] theorem ends_bind {f : α → EStateM ε σ β} {ok : β → σ → Prop} :
    Ends (act >>= f) s ok error ↔ Ends act s (fun x s' => Ends (f x) s' ok error) error := by
  show Ends (EStateM.bind act f) s ok error ↔ _
  unfold Ends EStateM.bind
  cases act s <;> rfl

@[simp] theorem ends_map {f : α → β} {ok : β → σ → Prop} :
    Ends (f <$> act) s ok error ↔ Ends act s (fun x s' => ok (f x) s') error := by
  show Ends (EStateM.map f act) s ok error ↔ _
  unfold Ends EStateM.map
  cases act s <;> rfl

@[simp] theorem ends_get {ok : σ → σ → Prop} :
    Ends (get : EStateM ε σ σ) s ok error ↔ ok s s := Iff.rfl

/-! ### Operations put together and taken apart -/

theorem bind_eq_of_ok {f : α → EStateM ε σ β} {s s' : σ} {x : α} (hact : act s = .ok x s') :
    (act >>= f) s = f x s' := by
  show EStateM.bind act f s = _
  unfold EStateM.bind
  rw [hact]

theorem bind_eq_of_error {f : α → EStateM ε σ β} {s s' : σ} {e : ε} (hact : act s = .error e s') :
    (act >>= f) s = .error e s' := by
  show EStateM.bind act f s = _
  unfold EStateM.bind
  rw [hact]

theorem bind_eq_ok_iff {f : α → EStateM ε σ β} {y : β} {s'' : σ} :
    (act >>= f) s = .ok y s'' ↔ ∃ x s', act s = .ok x s' ∧ f x s' = .ok y s'' := by
  show EStateM.bind act f s = _ ↔ _
  unfold EStateM.bind
  constructor
  · cases act s with
    | ok x s' => exact fun h => ⟨x, s', rfl, h⟩
    | error e s' => rintro ⟨⟩
  · rintro ⟨x, s', hact, h⟩
    rw [hact]
    exact h

/-- A sequence fails in its first part or in what follows a success of that. -/
theorem bind_eq_error_iff {f : α → EStateM ε σ β} {e : ε} {s'' : σ} :
    (act >>= f) s = .error e s'' ↔
      act s = .error e s'' ∨ ∃ x s', act s = .ok x s' ∧ f x s' = .error e s'' := by
  cases hact : act s with
  | ok x s' =>
    rw [bind_eq_of_ok hact]
    constructor
    · exact fun h => .inr ⟨x, s', rfl, h⟩
    · rintro (h | ⟨x', s₁, h, hf⟩)
      · cases h
      · cases h
        exact hf
  | error e' s' =>
    rw [bind_eq_of_error hact]
    constructor
    · rintro ⟨⟩
      exact .inl rfl
    · rintro (h | ⟨x', s₁, h, hf⟩)
      · cases h
        rfl
      · cases h

theorem map_eq_error_iff {f : α → β} {e : ε} {s' : σ} :
    (f <$> act) s = .error e s' ↔ act s = .error e s' := by
  rw [map_eq_pure_bind, bind_eq_error_iff]
  constructor
  · rintro (h | ⟨x, s₁, -, h⟩)
    · exact h
    · cases h
  · exact fun h => .inl h

theorem map_eq_ok_iff {f : α → β} {y : β} {s' : σ} :
    (f <$> act) s = .ok y s' ↔ ∃ x, act s = .ok x s' ∧ f x = y := by
  rw [map_eq_pure_bind, bind_eq_ok_iff]
  constructor
  · rintro ⟨x, _, hact, ⟨⟩⟩
    exact ⟨x, hact, rfl⟩
  · rintro ⟨x, hact, rfl⟩
    exact ⟨x, s', hact, rfl⟩

end

/-! ### Operations on the arena and on the machine -/

@[simp] theorem ends_read {α : Type} {f : Arena → Except ArenaError α} {a : Arena}
    {ok : α → Arena → Prop} {error : ArenaError → Arena → Prop} :
    Ends (ArenaM.read f) a ok error ↔
      match f a with
      | .ok x => ok x a
      | .error e => error e a := by
  simp only [ArenaM.read, ends_bind, ends_get]
  cases f a <;> rfl

@[simp] theorem ends_onArena {α : Type} {act : ArenaM α} {m : Machine} {ok : α → Machine → Prop}
    {error : MachineError → Machine → Prop} :
    Ends (MachineM.onArena act) m ok error ↔
      Ends act m.arena (fun x arena => ok x { m with arena })
        (fun e arena => error (.arena e) { m with arena }) := by
  unfold Ends MachineM.onArena
  cases act m.arena <;> rfl

@[simp] theorem ends_releasing {α : Type} {act : MachineM α} {m : Machine}
    {ok : α → Machine → Prop} {error : MachineError → Machine → Prop} :
    Ends (MachineM.releasing act) m ok error ↔
      Ends act m (fun x m' => ok x (m'.release m.temporaries.length))
        (fun e m' => error e (m'.release m.temporaries.length)) := by
  unfold Ends MachineM.releasing
  cases act m <;> rfl

theorem onArena_eq_ok_iff {α : Type} {act : ArenaM α} {m m' : Machine} {x : α} :
    MachineM.onArena act m = .ok x m' ↔ ∃ arena, act m.arena = .ok x arena ∧ m' = { m with arena } := by
  unfold MachineM.onArena
  constructor
  · cases act m.arena with
    | ok y arena => rintro ⟨⟩; exact ⟨arena, rfl, rfl⟩
    | error e arena => rintro ⟨⟩
  · rintro ⟨arena, hact, rfl⟩
    rw [hact]

theorem releasing_eq_ok_iff {α : Type} {act : MachineM α} {m m' : Machine} {x : α} :
    MachineM.releasing act m = .ok x m' ↔
      ∃ m₁, act m = .ok x m₁ ∧ m' = m₁.release m.temporaries.length := by
  unfold MachineM.releasing
  constructor
  · cases act m with
    | ok y m₁ => rintro ⟨⟩; exact ⟨m₁, rfl, rfl⟩
    | error e m₁ => rintro ⟨⟩
  · rintro ⟨m₁, hact, rfl⟩
    rw [hact]

/-- A reading operation that succeeds hands its result on. -/
theorem ArenaM.read_bind_eq_ok_iff {α β : Type} {a a' : Arena} {f : Arena → Except ArenaError α}
    {g : α → ArenaM β} {y : β} :
    (ArenaM.read f >>= g) a = .ok y a' ↔ ∃ x, f a = .ok x ∧ g x a = .ok y a' := by
  rw [bind_eq_ok_iff]
  constructor
  · rintro ⟨x, a₁, hread, h⟩
    cases hf : f a with
    | ok z => rw [read_eq_ok hf] at hread; cases hread; exact ⟨x, rfl, h⟩
    | error e => rw [read_eq_error hf] at hread; cases hread
  · rintro ⟨x, hf, h⟩
    exact ⟨x, a, read_eq_ok hf, h⟩

theorem MachineM.reading_eq_ok_iff {m m' : Machine} {α : Type} {f : Arena → Except ArenaError α}
    {x : α} : reading f m = .ok x m' ↔ f m.arena = .ok x ∧ m' = m := by
  constructor
  · intro h
    obtain ⟨arena, hread, rfl⟩ := onArena_eq_ok_iff.mp h
    cases hf : f m.arena with
    | ok y => rw [ArenaM.read_eq_ok hf] at hread; cases hread; exact ⟨rfl, rfl⟩
    | error e => rw [ArenaM.read_eq_error hf] at hread; cases hread
  · rintro ⟨hf, rfl⟩
    exact reading_eq_ok hf

theorem MachineM.eq_of_reading {m m' : Machine} {α : Type} {f : Arena → Except ArenaError α} {x : α}
    (h : reading f m = .ok x m') : m' = m := (reading_eq_ok_iff.mp h).2

theorem MachineM.eq_of_lookup {m m' : Machine} {name : String} {slot : SlotId} (h : lookup name m = .ok slot m') :
    m' = m ∧ m.bindings.get? name = some slot := by
  cases hname : m.bindings.get? name with
  | some slot' => rw [lookup_eq_ok hname] at h; cases h; exact ⟨rfl, rfl⟩
  | none => rw [lookup_eq_error hname] at h; cases h

theorem MachineM.eq_of_checkBase {m m' : Machine} {base : Value} {property : String}
    (h : checkBase base property m = .ok () m') : m' = m := by
  unfold checkBase at h
  split at h <;> cases h
  rfl

theorem MachineM.valueOf_eq_ok {m : Machine} {name : String} {slot : SlotId} {v : Value}
    (hname : m.bindings.get? name = some slot) (hv : m.arena.value slot = .ok v) :
    valueOf name m = .ok v m :=
  (bind_eq_of_ok (lookup_eq_ok hname)).trans (reading_eq_ok hv)

theorem MachineM.valueOf_eq_error {m : Machine} {name : String} (hname : m.bindings.get? name = none) :
    valueOf name m = .error (.undeclaredBinding name) m := bind_eq_of_error (lookup_eq_error hname)

/-! ### What every step does -/

/-- The state that an operation leaves, in either end. -/
def stateAfter {ε σ α : Type} (act : EStateM ε σ α) (s : σ) : σ :=
  match act s with
  | .ok _ s' | .error _ s' => s'

/-- What an operation returns, or its error. -/
def resultOf {ε σ α : Type} (act : EStateM ε σ α) (s : σ) : Except ε α :=
  match act s with
  | .ok x _ => .ok x
  | .error e _ => .error e

theorem stateAfter_of_ok {ε σ α : Type} {act : EStateM ε σ α} {s s' : σ} {x : α}
    (h : act s = .ok x s') : stateAfter act s = s' := by
  rw [stateAfter, h]

theorem stateAfter_of_error {ε σ α : Type} {act : EStateM ε σ α} {s s' : σ} {e : ε}
    (h : act s = .error e s') : stateAfter act s = s' := by
  rw [stateAfter, h]

theorem Ends.stateAfter {ε σ α : Type} {act : EStateM ε σ α} {s : σ} {P : σ → Prop}
    (h : Ends act s (fun _ => P) (fun _ => P)) : P (stateAfter act s) := by
  unfold Ends at h
  unfold SlotScript.stateAfter
  cases hact : act s with
  | ok x s' => rw [hact] at h; exact h
  | error e s' => rw [hact] at h; exact h

/-- Whatever the end of `act`, `R` holds between the state before and the state after. -/
def Always {ε σ α : Type} (R : σ → σ → Prop) (act : EStateM ε σ α) : Prop :=
  ∀ s, Ends act s (fun _ => R s) (fun _ => R s)

section

variable {ε σ α β : Type} {R : σ → σ → Prop} {act : EStateM ε σ α}

theorem Always.stateAfter (h : Always R act) (s : σ) : R s (stateAfter act s) := (h s).stateAfter

theorem always_modify {f : σ → σ} (h : ∀ s, R s (f s)) :
    Always R (modify f : EStateM ε σ PUnit) := h

theorem Always.map {f : α → β} (h : Always R act) : Always R (f <$> act) := by
  intro s
  rw [ends_map]
  exact h s

variable [IsPreorder σ R]

theorem always_pure (x : α) : Always R (pure x : EStateM ε σ α) := fun s => refl_of R s

theorem Always.bind {f : α → EStateM ε σ β} (h : Always R act) (hf : ∀ x, Always R (f x)) :
    Always R (act >>= f) := by
  intro s
  rw [ends_bind]
  refine (h s).mono (fun x s' hx => ?_) (fun _ _ he => he)
  exact (hf x s').mono (fun _ _ hs => trans_of R hx hs) (fun _ _ hs => trans_of R hx hs)

theorem always_read {R : Arena → Arena → Prop} [IsPreorder Arena R]
    (f : Arena → Except ArenaError α) : Always R (ArenaM.read f) := by
  intro a
  rw [ends_read]
  cases f a <;> exact refl_of R a

end

/-! ### Specifications with a frame -/

/-- Whatever the end of `act`, `R` holds between the state before and the state after; the result
satisfies `ok` there, or the error is one of `error`. -/
def EndsVia {ε σ α : Type} (R : σ → σ → Prop) (act : EStateM ε σ α) (s : σ) (ok : α → σ → Prop)
    (error : ε → Prop) : Prop :=
  Ends act s (fun x s' => R s s' ∧ ok x s') (fun e s' => R s s' ∧ error e)

section

variable {ε σ α β : Type} {R : σ → σ → Prop} {act : EStateM ε σ α} {s : σ} {ok ok' : α → σ → Prop}
  {error : ε → Prop}

theorem EndsVia.mono {R' : σ → σ → Prop} {error' : ε → Prop} (h : EndsVia R act s ok error)
    (hR : ∀ s', R s s' → R' s s') (hok : ∀ x s', R s s' → ok x s' → ok' x s')
    (herror : ∀ e, error e → error' e) : EndsVia R' act s ok' error' :=
  Ends.mono h (fun x s' hx => ⟨hR s' hx.1, hok x s' hx.1 hx.2⟩)
    fun e s' he => ⟨hR s' he.1, herror e he.2⟩

theorem endsVia_pure {x : α} (hs : R s s) (hx : ok x s) :
    EndsVia R (pure x : EStateM ε σ α) s ok error := ⟨hs, hx⟩

theorem endsVia_throw {e : ε} (hs : R s s) (he : error e) :
    EndsVia R (throw e : EStateM ε σ α) s ok error := ⟨hs, he⟩

theorem endsVia_modify {f : σ → σ} {ok : PUnit → σ → Prop} (hs : R s (f s)) (hok : ok ⟨⟩ (f s)) :
    EndsVia R (modify f : EStateM ε σ PUnit) s ok error := ⟨hs, hok⟩

theorem EndsVia.bind [IsTrans σ R] {f : α → EStateM ε σ β} {ok' : β → σ → Prop}
    (h : EndsVia R act s ok error)
    (hf : ∀ x s', R s s' → ok x s' → EndsVia R (f x) s' ok' error) :
    EndsVia R (act >>= f) s ok' error := by
  unfold EndsVia
  rw [ends_bind]
  refine Ends.mono h (fun x s' hx => ?_) fun _ _ he => he
  exact Ends.mono (hf x s' hx.1 hx.2) (fun y s'' hy => ⟨trans_of R hx.1 hy.1, hy.2⟩)
    fun e s'' he => ⟨trans_of R hx.1 he.1, he.2⟩

theorem EndsVia.map {f : α → β} {ok' : β → σ → Prop} (h : EndsVia R act s ok error)
    (hf : ∀ x s', R s s' → ok x s' → ok' (f x) s') : EndsVia R (f <$> act) s ok' error := by
  unfold EndsVia
  rw [ends_map]
  exact Ends.mono h (fun x s' hx => ⟨hx.1, hf x s' hx.1 hx.2⟩) fun _ _ he => he

theorem endsVia_of_ok {x : α} {s' : σ} (hact : act s = .ok x s') (hs : R s s') (hx : ok x s') :
    EndsVia R act s ok error := (ends_ok hact).mpr ⟨hs, hx⟩

theorem endsVia_of_error {e : ε} {s' : σ} (hact : act s = .error e s') (hs : R s s')
    (he : error e) : EndsVia R act s ok error := (ends_error hact).mpr ⟨hs, he⟩

/-- An operation that succeeds and changes nothing passes its result on. -/
theorem endsVia_bind_of_ok {f : α → EStateM ε σ β} {ok : β → σ → Prop} {x : α}
    (hact : act s = .ok x s) (h : EndsVia R (f x) s ok error) : EndsVia R (act >>= f) s ok error := by
  unfold EndsVia
  rw [ends_bind, ends_ok hact]
  exact h

/-- An operation that fails and changes nothing ends all. -/
theorem endsVia_bind_of_error {f : α → EStateM ε σ β} {ok : β → σ → Prop} {e : ε}
    (hact : act s = .error e s) (hs : R s s) (he : error e) : EndsVia R (act >>= f) s ok error := by
  unfold EndsVia
  rw [ends_bind, ends_error hact]
  exact ⟨hs, he⟩

end

end SlotScript
