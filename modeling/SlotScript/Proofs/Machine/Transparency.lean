import SlotScript.Proofs.Arena.Printed
import SlotScript.Proofs.Machine.Mirrored

/-!
# Programs do not notice collections

Two sessions of the same calls, one on a machine that collects and one on a machine that never frees
anything. As long as the second does not run out of slots, the two stay mirrored from call to call
(`Mirrored.perform`), and mirrored machines look alike from outside (`Mirrored.indistinguishable`).
-/

namespace SlotScript

/-- No number of freed or live slots gets into a value of the program. -/
def HostCall.Steady : HostCall → Prop
  | .declare _ initial => ∀ e ∈ initial, e.Steady false
  | .assign target value => target.Steady false ∧ value.Steady false
  | .eval e => e.Steady true
  | .evalValue e => e.Steady false
  | .removeBinding _ => True
  | .collect => True

/-- Two calls succeeded or failed alike, and nothing that the names of a program stand for tells the
machines after them apart. -/
structure Indistinguishable (step step' : Except MachineError Reply × Machine) : Prop where
  result : match step.1, step'.1 with
    | .ok _, .ok _ => True
    | .error e, .error e' => e = e'
    | _, _ => False
  bound_iff : ∀ name,
    (step.2.bindings.get? name).isSome ↔ (step'.2.bindings.get? name).isSome
  values : ∀ x y, (step.2.bindings.get? x).isSome → (step.2.bindings.get? y).isSome →
    ∃ v w v' w', MachineM.valueOf x step.2 = .ok v step.2 ∧
      MachineM.valueOf y step.2 = .ok w step.2 ∧
      MachineM.valueOf x step'.2 = .ok v' step'.2 ∧
      MachineM.valueOf y step'.2 = .ok w' step'.2 ∧
      step.2.arena.display v = step'.2.arena.display v' ∧
      v.strictEq w = v'.strictEq w'
  total_eq : step.2.arena.total = step'.2.arena.total

namespace MachineM

open Machine (Mirrored Advanced)

variable {p : Twin Machine} {α β α' β' : Type}

/-- The ends of the two operations are mirrored. -/
def Tracks (act : MachineM α) (act' : MachineM β) (p : Twin Machine) : Prop :=
  Follows (fun _ q => Mirrored q) (·.isFatal) act act' p fun _ _ _ => True

theorem tracks_of_follows {act : MachineM α} {act' : MachineM β} {ok : α → β → Twin Machine → Prop}
    (h : Follows Advanced (·.isFatal) act act' p ok) : Tracks act act' p :=
  h.mono (fun _ hq => hq.mirrored) fun _ _ _ _ _ => trivial

theorem tracks_bind {act : MachineM α} {act' : MachineM β} {f : α → MachineM α'}
    {f' : β → MachineM β'} {ok : α → β → Twin Machine → Prop}
    (h : Follows Advanced (·.isFatal) act act' p ok)
    (hf : ∀ x y q, Advanced p q → ok x y q → Tracks (f x) (f' y) q) :
    Tracks (act >>= f) (act' >>= f') p :=
  h.bindTo (fun _ hq => hq.mirrored) (fun _ _ _ hr => hr) hf

theorem Tracks.map {act : MachineM α} {act' : MachineM β} (h : Tracks act act' p) (f : α → α')
    (f' : β → β') : Tracks (f <$> act) (f' <$> act') p :=
  Follows.map h fun _ _ _ _ _ => trivial

theorem Tracks.releasing {act : MachineM α} {act' : MachineM β} (h : Tracks act act' p)
    (hp : Mirrored p) : Tracks (releasing act) (releasing act') p :=
  Follows.releasing h hp.length_temporaries (fun _ hq => hq.release _) fun _ _ _ _ => trivial

/-- A write on both sides. -/
theorem tracks_onArena (h : Mirrored p) {act act' : ArenaM Unit}
    (hact : Follows Arena.Moved (·.isFatal) act act' p.arena fun _ _ _ => True) :
    Tracks (onArena act) (onArena act') p := by
  apply Follows.onArena hact
  intro q hq
  exact h.of_arena (h.sound.of_kept hq.kept) hq.mirrored hq.agree

/-! ### Statements -/

theorem follows_initialOutcome (h : Mirrored p) (name : String) {initial : Option Expr}
    (hinitial : ∀ e ∈ initial, e.Steady false) :
    Follows Advanced (·.isFatal) (initialOutcome name initial) (initialOutcome name initial) p
      (Matched false) := by
  cases initial with
  | some e => exact evaluatesAlike (hinitial e rfl) h
  | none =>
    unfold initialOutcome
    apply follows_bind_of_ok rfl rfl
    rw [h.bindings_eq, NameTable.get?_rename]
    cases hname : p.swept.bindings.get? name with
    | some slot =>
      exact follows_pure h.advanced_refl
        ⟨h.sound.binding slot (NameTable.mem_slots_of_get? hname), fun _ => rfl⟩
    | none => exact follows_pure h.advanced_refl ⟨trivial, fun _ => rfl⟩

theorem tracks_declare (h : Mirrored p) (name : String) {initial : Option Expr}
    (hinitial : ∀ e ∈ initial, e.Steady false) :
    Tracks (declare name initial) (declare name initial) p := by
  apply tracks_bind (follows_initialOutcome h name hinitial)
  rintro o _ q₁ hq₁ ⟨ho, hmatch⟩
  rw [hmatch rfl]
  have hslot := ArenaM.follows_bindingSlot hq₁.mirrored.arena ho
  apply tracks_bind (hslot.onArena fun _ => hq₁.mirrored.advanced_arena)
  rintro slot _ q₂ hq₂ ⟨rfl, hlive⟩
  refine follows_of_ok q₂.image rfl rfl ?_ trivial
  refine ⟨hq₂.mirrored.sound.insert name hlive, hq₂.mirrored.arena, ?_, hq₂.mirrored.temporaries_eq⟩
  show q₂.full.bindings.insert name (q₂.image slot) = (q₂.swept.bindings.insert name slot).rename _
  rw [hq₂.mirrored.bindings_eq, NameTable.insert_rename]

theorem tracks_assignProperty {base value : Expr} {property : MachineM String}
    (hbase : base.Steady false)
    (hproperty : ∀ {p : Twin Machine}, Mirrored p →
      Follows Advanced (·.isFatal) property property p fun key key' _ => key' = key)
    (hvalue : value.Steady false) (h : Mirrored p) :
    Tracks (assignProperty base property value) (assignProperty base property value) p := by
  apply tracks_bind (EvaluatesAlike.value (evaluatesAlike hbase) h)
  rintro v _ q₁ hq₁ ⟨hv, rfl⟩
  apply tracks_bind (follows_holdValue hq₁.mirrored hv)
  rintro _ _ _ hq₂ rfl
  apply tracks_bind (hproperty hq₂.mirrored)
  rintro _ key q₃ hq₃ rfl
  obtain ⟨-, hrename⟩ := hq₃.outcome hv
  rw [← Outcome.fresh.inj hrename]
  apply tracks_bind (follows_checkBase hq₃.mirrored v key)
  rintro _ _ q₃ hq₄ rfl
  apply tracks_bind (evaluatesAlike hvalue hq₄.mirrored)
  rintro o _ q₅ hq₅ ⟨ho, hmatch⟩
  obtain ⟨hvalid, hrename₅⟩ := (trans_of Advanced hq₃ hq₅).outcome hv
  rw [hmatch rfl, Outcome.fresh.inj (hrename.trans hrename₅.symm)]
  exact tracks_onArena hq₅.mirrored (ArenaM.follows_setProperty hq₅.mirrored.arena key hvalid ho)

theorem tracks_assign (h : Mirrored p) {target value : Expr} (htarget : target.Steady false)
    (hvalue : value.Steady false) : Tracks (assign target value) (assign target value) p := by
  cases htarget with
  | name name =>
    apply tracks_bind (follows_lookup h name)
    rintro slot _ p₀ - ⟨rfl, hslot, rfl⟩
    apply tracks_bind (EvaluatesAlike.value (evaluatesAlike hvalue) h)
    rintro v _ q hq ⟨hv, rfl⟩
    have himage : q.image slot = p₀.image slot := hq.agree _ (Machine.slot_mem_roots hslot)
    rw [← himage]
    rw [← hq.steps.bindings_eq] at hslot
    exact tracks_onArena hq.mirrored
      (ArenaM.follows_setValue hq.mirrored.arena (hq.mirrored.sound.binding slot hslot) hv)
  | member hbase =>
    refine (tracks_assignProperty hbase (fun hp => ?_) hvalue h).releasing h
    exact follows_pure hp.advanced_refl rfl
  | index hbase hkey =>
    refine (tracks_assignProperty hbase (fun hp => ?_) hvalue h).releasing h
    apply (EvaluatesAlike.value (evaluatesAlike hkey) hp).map
    rintro v _ q _ ⟨-, rfl⟩
    exact v.toText_rename
  | _ => exact follows_throw h

end MachineM

namespace Machine

open MachineM

variable {p : Twin Machine}

/-! ### Calls -/

/-- A collection on the one side only. -/
theorem Mirrored.collect (h : Mirrored p) : Mirrored ⟨p.image, p.swept.collect.2, p.full⟩ := by
  have hq := h.advanced_collect.mirrored
  rwa [collect_of_disabled h.arena.disabled] at hq

theorem Mirrored.removeBinding (h : Mirrored p) (name : String) :
    Mirrored ⟨p.image, (p.swept.removeBinding name).2, (p.full.removeBinding name).2⟩ := by
  have hfull : p.full.bindings.get? name = (p.swept.bindings.get? name).map p.image := by
    rw [h.bindings_eq, NameTable.get?_rename]
  cases hname : p.swept.bindings.get? name with
  | none =>
    rw [hname, Option.map_none] at hfull
    rw [removeBinding_of_none hname, removeBinding_of_none hfull]
    exact h
  | some slot =>
    rw [hname, Option.map_some] at hfull
    have herased : Mirrored ⟨p.image,
        { p.swept with bindings := (p.swept.bindings.getThenErase name).2 },
        { p.full with bindings := (p.full.bindings.getThenErase name).2 }⟩ := by
      refine ⟨h.sound.erase name, h.arena, ?_, h.temporaries_eq⟩
      show (p.full.bindings.getThenErase name).2 = _
      rw [h.bindings_eq, NameTable.getThenErase_rename]
    have hcollect : Machine.collect { p.full with bindings := (p.full.bindings.getThenErase name).2 } =
        ({}, { p.full with bindings := (p.full.bindings.getThenErase name).2 }) :=
      collect_of_disabled h.arena.disabled
    rw [removeBinding_of_some hname, removeBinding_of_some hfull, hcollect, ite_self]
    split
    · exact herased.collect
    · exact herased

/-- Each call keeps machines mirrored, and ends in the same way on both. -/
theorem Mirrored.perform (h : Mirrored p) {call : HostCall} (hcall : call.Steady) :
    Tracks call.perform call.perform p := by
  cases call with
  | declare name initial => exact (tracks_declare h name hcall).map _ _
  | assign target value => exact (tracks_assign h hcall.1 hcall.2).map _ _
  | eval e => exact (tracks_of_follows (evaluatesAlike hcall h)).map _ _
  | evalValue e =>
    exact (tracks_of_follows (EvaluatesAlike.value (evaluatesAlike hcall) h)).map _ _
  | removeBinding name => exact follows_of_ok p.image rfl rfl (h.removeBinding name) trivial
  | collect => exact follows_of_ok p.image rfl rfl h.advanced_collect.mirrored trivial

/-! ### Sessions -/

/-- What a bound name stands for on the two sides. -/
theorem Mirrored.valueOf (h : Mirrored p) {name : String}
    (hname : (p.swept.bindings.get? name).isSome) :
    ∃ v, v.ValidIn p.swept.arena ∧ MachineM.valueOf name p.swept = .ok v p.swept ∧
      MachineM.valueOf name p.full = .ok (v.rename p.image) p.full := by
  obtain ⟨slot, hslot⟩ := Option.isSome_iff_exists.mp hname
  have hfull : p.full.bindings.get? name = some (p.image slot) := by
    rw [h.bindings_eq, NameTable.get?_rename, hslot, Option.map_some]
  obtain ⟨s, hs⟩ := Arena.get?_of_isLive (h.sound.binding slot (NameTable.mem_slots_of_get? hslot))
  exact ⟨s.value, h.sound.closed.value hs, valueOf_eq_ok hslot (Arena.value_eq_ok hs),
    valueOf_eq_ok hfull (h.arena.value_eq_ok hs)⟩

theorem Mirrored.indistinguishable (h : Mirrored p) {r r' : Except MachineError Reply}
    (hresult : match r, r' with
      | .ok _, .ok _ => True
      | .error e, .error e' => e = e'
      | _, _ => False) : Indistinguishable (r, p.swept) (r', p.full) := by
  refine ⟨hresult, ?_, ?_, h.arena.total_eq.symm⟩
  · intro name
    show _ ↔ (p.full.bindings.get? name).isSome
    rw [h.bindings_eq, NameTable.get?_rename, Option.isSome_map]
  · intro x y hx hy
    obtain ⟨v, hv, hxv, hxv'⟩ := h.valueOf hx
    obtain ⟨w, hw, hyw, hyw'⟩ := h.valueOf hy
    refine ⟨v, w, _, _, hxv, hyw, hxv', hyw', (h.arena.display hv).symm, ?_⟩
    symm
    apply Value.strictEq_rename
    intro i j hi hj heq
    exact h.arena.injective (hv.isLive hi) (hw.isLive hj) heq

theorem mirrored_new {config config' : MachineConfig}
    (hdisabled : config'.arena.reclamation = .disabled)
    (hcapacity : config'.arena.capacity = config.arena.capacity) :
    Mirrored ⟨id, new config, new config'⟩ := by
  have hnone (id : SlotId) : (new config).arena.get? id = none := by simp [new, Arena.get?]
  refine ⟨sound_new config, ⟨(sound_new config).accounted, (sound_new config).closed,
    (sound_new config').accounted, hdisabled, hcapacity, Nat.le_refl _, rfl, ?_, ?_⟩, rfl, rfl⟩
  · intro i j _ _ heq
    exact heq
  · intro id s hs
    have hs : (new config).arena.get? id = some s := hs
    rw [hnone] at hs
    cases hs

/-- Sessions on mirrored machines, as long as the one without collections has slots left. -/
theorem Mirrored.session (h : Mirrored p) {calls : List HostCall}
    (hcalls : ∀ call ∈ calls, call.Steady)
    (hroom : ∀ step ∈ p.full.session calls, ∀ e, step.1 = .error e → ¬ e.isFatal) :
    List.Forall₂ Indistinguishable (p.swept.session calls) (p.full.session calls) := by
  induction calls generalizing p with
  | nil => exact .nil
  | cons call calls ih =>
    have hcall := h.perform (hcalls call List.mem_cons_self)
    have hrest (c : HostCall) (hc : c ∈ calls) : c.Steady := hcalls c (List.mem_cons_of_mem _ hc)
    unfold session at hroom ⊢
    cases hact' : call.perform p.full with
    | ok reply' full =>
      obtain ⟨reply, swept, ρ, hact, hq, -⟩ := (ends_ok hact').mp hcall
      rw [hact'] at hroom
      rw [hact]
      refine .cons (hq.indistinguishable trivial) (ih hq hrest fun step hstep => ?_)
      exact hroom step (List.mem_cons_of_mem _ hstep)
    | error e full =>
      rw [hact'] at hroom
      rcases (ends_error hact').mp hcall with hfatal | ⟨swept, ρ, hact, hq⟩
      · exact absurd hfatal (hroom _ List.mem_cons_self e rfl)
      · rw [hact]
        refine .cons (hq.indistinguishable rfl) (ih hq hrest fun step hstep => ?_)
        exact hroom step (List.mem_cons_of_mem _ hstep)

/-- **Collections are invisible to programs.** If a session never runs out of slots on a machine that
reclaims nothing, then on a machine of the same capacity it looks the same from call to call, however
that one reclaims and whenever its collections run. -/
theorem session_transparent {config config' : MachineConfig}
    (hdisabled : config'.arena.reclamation = .disabled)
    (hcapacity : config'.arena.capacity = config.arena.capacity) (calls : List HostCall)
    (hcalls : ∀ call ∈ calls, call.Steady)
    (hroom : ∀ step ∈ (new config').session calls, ∀ c, step.1 ≠ .error (.arena (.exhausted c))) :
    List.Forall₂ Indistinguishable ((new config).session calls) ((new config').session calls) := by
  apply (mirrored_new hdisabled hcapacity).session hcalls
  intro step hstep e herror hfatal
  cases e with
  | arena e =>
    cases e with
    | exhausted c => exact hroom step hstep c herror
    | _ => cases hfatal
  | _ => cases hfatal

/-- The slots of an array are reused for an object and looked at through it. -/
theorem session_transparent_reusing :
    let config : MachineConfig := { arena := { capacity := 8, reclamation := .markSweep } }
    let config' : MachineConfig := { arena := { capacity := 8, reclamation := .disabled } }
    let calls : List HostCall :=
      [.declare "a" (some (.array [.literal .null])), .removeBinding "a",
        .eval (.call "gb_collect" []), .declare "b" (some (.object [("x", .literal .null)])),
        .assign (.member (.name "b") "x") (.name "b"), .eval (.name "a")]
    (∀ call ∈ calls, call.Steady) ∧
      (∀ step ∈ (new config').session calls, ∀ c, step.1 ≠ .error (.arena (.exhausted c))) ∧
      List.Forall₂ Indistinguishable ((new config).session calls) ((new config').session calls) := by
  intro config config' calls
  have hcalls : ∀ call ∈ calls, call.Steady := by
    simp only [calls, List.forall_mem_cons, List.not_mem_nil, false_imp_iff, implies_true, and_true]
    refine ⟨?_, trivial, .call Bool.noConfusion (List.forall_mem_nil _), ?_,
      ⟨.member (.name _), .name _⟩, .name _⟩
    · rintro e ⟨⟩
      exact .array (List.forall_mem_singleton.mpr (.literal rfl))
    · rintro e ⟨⟩
      exact .object (List.forall_mem_singleton.mpr (.literal rfl))
  have hroom : ∀ step ∈ (new config').session calls,
      ∀ c, step.1 ≠ .error (.arena (.exhausted c)) := by
    have hall : (((new config').session calls).all fun step => match step.1 with
        | .error e => !e.isFatal
        | .ok _ => true) = true := by decide +kernel
    intro step hstep c herror
    have hstep := List.all_eq_true.mp hall step hstep
    rw [herror] at hstep
    cases hstep
  have hcapacity : config'.arena.capacity = config.arena.capacity := rfl
  exact ⟨hcalls, hroom, session_transparent rfl hcapacity calls hcalls hroom⟩

end Machine

end SlotScript
