import SlotScript.Proofs.Machine.Allocation

/-!
# How many slots a call takes

On top of what evaluating its operands takes (`spends_eval`), a declaration takes a slot for the binding
unless it takes over a minted one, an assignment to a name takes nothing, and one to a property takes a
slot if the write adds one (`Arena.addsSlot`). `calls_spend` puts this together for every machine that
calls lead to.
-/

namespace SlotScript

/-- Where a property assignment writes to: the base, and the name of the property. -/
def Expr.place? : Expr → Option (Expr × MachineM String)
  | member base property => some (base, return property)
  | index base key => some (base, Value.toText <$> MachineM.evalValue key)
  | _ => none

namespace MachineM

variable {m m' : Machine} {e : Expr}

theorem spent_bindingSlot {o : Outcome} {name : String} {slot : SlotId} {s : SlotId} {m₁ : Machine}
    (hslot : onArena (.bindingSlot o) m = .ok s m₁)
    (hbind : (do
      modify fun m => { m with bindings := m.bindings.insert name s }
      return s : MachineM SlotId) m₁ = .ok slot m') :
    m.Spent (!o.isMinted).toNat 0 m' := by
  obtain ⟨arena, htook, rfl⟩ := onArena_eq_ok_iff.mp hslot
  have h := ArenaM.took_bindingSlot htook
  cases hbind
  exact ⟨h.total_eq, h.live_eq⟩

/-- A declaration takes what its initial value takes, and a slot for the binding unless the value comes
with one. -/
theorem spent_declare_some (h : m.arena.Accounted) {name : String} {slot : SlotId}
    (hrun : declare name (some e) m = .ok slot m') :
    ∃ outcome m₁, eval e m = .ok outcome m₁ ∧
      m.Spent (slotsFor (evaluations e m) + (!outcome.isMinted).toNat)
        (freedDuring (evaluations e m)) m' := by
  obtain ⟨o, m₁, ho, hrest⟩ := bind_eq_ok_iff.mp hrun
  obtain ⟨s, m₂, hslot, hbind⟩ := bind_eq_ok_iff.mp hrest
  exact ⟨o, m₁, ho, (spends_eval e h ho).trans (spent_bindingSlot hslot hbind)⟩

theorem spent_declare_none {name : String} {slot : SlotId}
    (hrun : declare name none m = .ok slot m') : m.Spent 1 0 m' := by
  obtain ⟨o, m₁, hinitial, hrest⟩ := bind_eq_ok_iff.mp hrun
  obtain ⟨s, m₂, hslot, hbind⟩ := bind_eq_ok_iff.mp hrest
  have hspent := spent_bindingSlot hslot hbind
  obtain ⟨_, _, ⟨⟩, hoption⟩ := bind_eq_ok_iff.mp hinitial
  cases hname : m.bindings.get? name with
  | some slot => rw [hname] at hoption; cases hoption; exact hspent
  | none => rw [hname] at hoption; cases hoption; exact hspent

theorem spentOn_assign_name (h : m.arena.Accounted) {name : String}
    (hrun : assign (.name name) e m = .ok () m') : m.SpentOn (evaluations e m) m' := by
  obtain ⟨slot, m₁, hlookup, hrest⟩ := bind_eq_ok_iff.mp hrun
  obtain ⟨rfl, -⟩ := eq_of_lookup hlookup
  obtain ⟨v, m₂, hv, hset⟩ := bind_eq_ok_iff.mp hrest
  obtain ⟨arena, htook, rfl⟩ := onArena_eq_ok_iff.mp hset
  exact ((spends_eval e).value h hv).1.trans (Machine.spent_of_took (ArenaM.took_setValue htook))

/-- What locating the place of an assignment takes, by the operands in it. -/
theorem spentOn_locate {target base : Expr} {property : MachineM String}
    (hplace : target.place? = some (base, property)) (h : m.arena.Accounted) (value : Expr)
    {place : Value × String} (hlocate : locate base property m = .ok place m') :
    ∃ located, (HostCall.assign target value).operands m = located ++ [(value, m')] ∧
      m.SpentOn (located.flatMap fun p => evaluations p.1 p.2) m' ∧ m'.arena.Accounted := by
  have hcase : inCase ((fun _ => true) <$> locate base property) value m = [(value, m')] :=
    inCase_of_ok (map_eq_ok_iff.mpr ⟨place, hlocate, rfl⟩)
  obtain ⟨v, m₁, hv, hrest⟩ := bind_eq_ok_iff.mp hlocate
  obtain ⟨_, m₂, hhold, hthen⟩ := bind_eq_ok_iff.mp hrest
  obtain ⟨key, m₃, hkey, hcheck⟩ := bind_eq_ok_iff.mp hthen
  obtain ⟨_, m₄, hchecked, ⟨⟩⟩ := bind_eq_ok_iff.mp hcheck
  obtain rfl := eq_of_checkBase hchecked
  cases target with
  | member _ name =>
    cases hplace
    cases hkey
    obtain rfl := eq_of_holdValue hhold
    obtain ⟨hspent, haccounted⟩ := (spends_eval base).value h hv
    exact ⟨[(base, m)], congrArg _ hcase, spentOn_one (hspent.holding v.held), haccounted⟩
  | index _ key' =>
    cases hplace
    obtain ⟨k, hk, -⟩ := map_eq_ok_iff.mp hkey
    refine ⟨inTurn keepingValue [base, key'] m, congrArg (_ ++ ·) hcase,
      spentOn_keepingValue (spends_eval base) (spends_eval key') h hv hhold hk, ?_⟩
    obtain rfl := eq_of_holdValue hhold
    have haccounted := ((spends_eval base).value h hv).2
    exact ((spends_eval key').value (m := m₁.holding v.held) haccounted hk).2
  | _ => cases hplace

/-- An assignment to a property takes what its operands take, and a slot if the write adds one. -/
theorem spent_assign_place {target base value : Expr} {property : MachineM String}
    (hplace : target.place? = some (base, property)) (h : m.arena.Accounted)
    (hrun : assign target value m = .ok () m') :
    ∃ v key m₁ outcome m₂, locate base property m = .ok (v, key) m₁ ∧
      eval value m₁ = .ok outcome m₂ ∧
      m.Spent (slotsFor ((HostCall.assign target value).evaluations m) +
        (m₂.arena.addsSlot v key outcome).toNat)
        (freedDuring ((HostCall.assign target value).evaluations m)) m' := by
  have hassign : assign target value = releasing (assignProperty base property value) := by
    cases target with
    | member _ name => cases hplace; rfl
    | index _ key => cases hplace; rfl
    | _ => cases hplace
  rw [hassign, assignProperty_eq] at hrun
  obtain ⟨m₀, hbody, rfl⟩ := releasing_eq_ok_iff.mp hrun
  obtain ⟨⟨v, key⟩, m₁, hlocate, hrest⟩ := bind_eq_ok_iff.mp hbody
  obtain ⟨o, m₂, ho, hset⟩ := bind_eq_ok_iff.mp hrest
  obtain ⟨arena, htook, rfl⟩ := onArena_eq_ok_iff.mp hset
  obtain ⟨located, hoperands, hspent, haccounted⟩ := spentOn_locate hplace h value hlocate
  refine ⟨v, key, m₁, o, m₂, hlocate, ho, ?_⟩
  have hevaluated := hspent.append (spentOn_one (p := (value, m₁)) (spends_eval value haccounted ho))
  rw [← List.flatMap_append, ← hoperands] at hevaluated
  have hwritten := hevaluated.trans (Machine.spent_of_took (ArenaM.took_setProperty htook))
  exact ⟨hwritten.total_eq, hwritten.live_eq⟩

end MachineM

namespace Machine

open MachineM

/-- **The slots that a call takes** can be counted from the evaluations that it makes, on every machine
that calls lead to. An evaluation takes one slot for each literal of a container that it evaluates, and
one for each member or element of those that has a fresh outcome of its own. A declaration takes one
more, unless its initial value is minted. An assignment to a name takes no more, and one to a property
one more exactly if the write adds a slot. The number of live slots grows as much, less what the
collections in between free. -/
theorem calls_spend (config : MachineConfig) (calls : List HostCall) :
    let m := (new config).after calls
    (∀ e outcome m', eval e m = .ok outcome m' →
      m.Spent (slotsFor (evaluations e m)) (freedDuring (evaluations e m)) m') ∧
    (∀ name slot m', declare name none m = .ok slot m' → m.Spent 1 0 m') ∧
    (∀ name e slot m', declare name (some e) m = .ok slot m' →
      ∃ outcome m₁, eval e m = .ok outcome m₁ ∧
        m.Spent (slotsFor (evaluations e m) + if outcome.isMinted then 0 else 1)
          (freedDuring (evaluations e m)) m') ∧
    (∀ name value m', assign (.name name) value m = .ok () m' →
      m.Spent (slotsFor (evaluations value m)) (freedDuring (evaluations value m)) m') ∧
    (∀ target base property value m', target.place? = some (base, property) →
      assign target value m = .ok () m' →
      ∃ v key m₁ outcome m₂, locate base property m = .ok (v, key) m₁ ∧
        eval value m₁ = .ok outcome m₂ ∧
        m.Spent (slotsFor ((HostCall.assign target value).evaluations m) +
          if m₂.arena.addsSlot v key outcome then 1 else 0)
          (freedDuring ((HostCall.assign target value).evaluations m)) m') := by
  intro m
  obtain ⟨h, -⟩ := accounted_after config calls
  refine ⟨fun e outcome m' => spends_eval e h, fun name slot m' => spent_declare_none, ?_,
    fun name value m' => spentOn_assign_name h, ?_⟩
  · intro name e slot m' hrun
    obtain ⟨o, m₁, ho, hspent⟩ := spent_declare_some h hrun
    refine ⟨o, m₁, ho, ?_⟩
    cases hminted : o.isMinted <;> rw [hminted] at hspent <;> exact hspent
  · intro target base property value m' hplace hrun
    obtain ⟨v, key, m₁, o, m₂, hlocate, ho, hspent⟩ := spent_assign_place hplace h hrun
    refine ⟨v, key, m₁, o, m₂, hlocate, ho, ?_⟩
    cases hadds : m₂.arena.addsSlot v key o <;> rw [hadds] at hspent <;> exact hspent

/-- The object that `and` skips takes no slot, and neither does the element that shares the slot of `o`.
The property of `o` takes one when it is new. -/
theorem calls_spend_sharing :
    let m := (new {}).after [.declare "o" (some (.object []))]
    let e : Expr := .array [.and (.literal .null) (.object []), .name "o"]
    let place : Expr := .member (.name "o") "p"
    (∃ outcome m', eval e m = .ok outcome m' ∧ m.Spent 2 0 m') ∧
    (∃ slot m', declare "x" none m = .ok slot m' ∧ m.Spent 1 0 m') ∧
    (∃ slot m', declare "x" (some e) m = .ok slot m' ∧ m.Spent 2 0 m') ∧
    (∃ m', assign (.name "o") e m = .ok () m' ∧ m.Spent 2 0 m') ∧
    ∃ m', assign place (.literal .null) m = .ok () m' ∧ m.Spent 1 0 m' := by
  intro m e place
  obtain ⟨heval, hnone, hsome, hname, hplace⟩ := calls_spend {} [.declare "o" (some (.object []))]
  have hslots : slotsFor (evaluations e m) = 2 := by decide +kernel
  have hfreed : freedDuring (evaluations e m) = 0 := by decide +kernel
  have he := heval e _ _ rfl
  obtain ⟨o, m₁, ho, hdeclared⟩ := hsome "x" e _ _ rfl
  cases ho
  have hassigned := hname "o" e _ rfl
  rw [hslots, hfreed] at he hdeclared hassigned
  obtain ⟨v, key, m₂, o', m₃, hlocate, ho', hwritten⟩ := hplace place _ _ (.literal .null) _ rfl rfl
  cases hlocate
  cases ho'
  have hnothing : slotsFor ((HostCall.assign place (.literal .null)).evaluations m) = 0 ∧
      freedDuring ((HostCall.assign place (.literal .null)).evaluations m) = 0 := by decide +kernel
  rw [hnothing.1, hnothing.2] at hwritten
  exact ⟨⟨_, _, rfl, he⟩, ⟨_, _, rfl, hnone "x" _ _ rfl⟩, ⟨_, _, rfl, hdeclared⟩,
    ⟨_, rfl, hassigned⟩, ⟨_, rfl, hwritten⟩⟩

end Machine

end SlotScript
