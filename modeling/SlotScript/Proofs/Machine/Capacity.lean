import SlotScript.Proofs.Machine.Bookkeeping

/-!
# Capacity matters only where it is used up

The same operation is run on a machine and on the machine with a smaller capacity. As long as the table
of the first fits in the smaller capacity, the two end in the same way; once it does not, the second has
run out of slots (`MachineM.ScalesAt`). That is so for an allocation, as the table grows only when every
entry is live, and it passes from steps to calls, as the table does not shrink (`stepwise_adapts`).
`session_withCapacity` follows call by call.
-/

namespace SlotScript

/-- The arena with another capacity. -/
def Arena.withCapacity (c : UInt32) (a : Arena) : Arena :=
  { a with config := { a.config with capacity := c } }

/-- The machine with another capacity. -/
def Machine.withCapacity (c : UInt32) (m : Machine) : Machine :=
  { m with arena := m.arena.withCapacity c }

/-! ### Collections -/

namespace Arena

theorem unreached_withCapacity (c : UInt32) (a : Arena) (unseen pending : List Reference) :
    (a.withCapacity c).unreached unseen pending = a.unreached unseen pending := by
  fun_induction unreached a unseen pending with
  | case1 => rw [unreached]
  | case2 unseen r pending hr ih => rw [unreached, if_pos hr]; exact ih
  | case3 unseen r pending hr ih => rw [unreached, if_neg hr]; exact ih

/-- A collection does not look at the capacity. -/
theorem collect_withCapacity (c : UInt32) (a : Arena) (roots : List Reference) :
    (a.withCapacity c).collect roots = ((a.collect roots).1, (a.collect roots).2.withCapacity c) := by
  cases hpolicy : a.config.reclamation with
  | disabled =>
    have hpolicy' : (a.withCapacity c).config.reclamation = .disabled := hpolicy
    rw [collect_of_disabled hpolicy, collect_of_disabled hpolicy']
  | markSweep =>
    have hpolicy' : (a.withCapacity c).config.reclamation = .markSweep := hpolicy
    rw [collect_of_markSweep hpolicy, collect_of_markSweep hpolicy', unreached_withCapacity]
    rfl

theorem size_collect (a : Arena) (roots : List Reference) :
    (a.collect roots).2.slots.size = a.slots.size := by
  cases hpolicy : a.config.reclamation with
  | disabled => rw [collect_of_disabled hpolicy]
  | markSweep => rw [collect_of_markSweep hpolicy]; exact Array.size_mapIdx

end Arena

theorem Machine.collect_withCapacity (c : UInt32) (m : Machine) :
    (m.withCapacity c).collect = (m.collect.1, m.collect.2.withCapacity c) := by
  have h : (m.withCapacity c).arena.collect (m.withCapacity c).roots =
      ((m.arena.collect m.roots).1, (m.arena.collect m.roots).2.withCapacity c) :=
    m.arena.collect_withCapacity c m.roots
  rw [Machine.collect, h]
  rfl

theorem Machine.removeBinding_withCapacity (c : UInt32) (m : Machine) (name : String) :
    (m.withCapacity c).removeBinding name =
      ((m.removeBinding name).1, (m.removeBinding name).2.withCapacity c) := by
  have hbindings : (m.withCapacity c).bindings = m.bindings := rfl
  have hpolicy : (m.withCapacity c).collectOnRemove = m.collectOnRemove := rfl
  unfold removeBinding
  rw [hbindings, hpolicy]
  obtain ⟨found, bindings⟩ := m.bindings.getThenErase name
  cases found with
  | none => rfl
  | some slot =>
    cases m.collectOnRemove with
    | true =>
      exact congrArg (fun r => (some slot, r.2))
        (collect_withCapacity c { m with bindings, collectOnRemove := true })
    | false => rfl

/-- The capacity `c` is no greater than that of the machine, and the table fits in it. -/
structure Machine.Fits (c : UInt32) (m : Machine) : Prop where
  accounted : m.arena.Accounted
  capacity_le : c ≤ m.arena.config.capacity
  size_le : m.arena.slots.size ≤ c.toNat

namespace MachineM

variable {α β : Type} {c : UInt32} {m : Machine} {act : MachineM α}

/-- The end of an operation, with another capacity in the machine that it leaves. -/
def endWithCapacity (c : UInt32) :
    EStateM.Result MachineError Machine α → EStateM.Result MachineError Machine α
  | .ok x m => .ok x (m.withCapacity c)
  | .error e m => .error e (m.withCapacity c)

/-- The operation fails for want of slots. -/
def RunsOut (act : MachineM α) (m : Machine) : Prop :=
  ∃ k m', act m = .error (.arena (.exhausted k)) m'

/-- How an operation compares with itself under the capacity `c`. -/
inductive ScalesAt (c : UInt32) (act : MachineM α) (m : Machine) : Prop where
  /-- It runs out of slots anyway. -/
  | exhausted : RunsOut act m → ScalesAt c act m
  /-- The table still fits afterwards, and it ends in the same way. -/
  | fits : (stateAfter act m).arena.slots.size ≤ c.toNat →
      act (m.withCapacity c) = endWithCapacity c (act m) → ScalesAt c act m
  /-- The table does not fit afterwards, and it runs out of slots. -/
  | overflows : c.toNat < (stateAfter act m).arena.slots.size → RunsOut act (m.withCapacity c) →
      ScalesAt c act m

/-- The operation compares with itself in this way wherever the table fits, and leaves the arena in
step. -/
structure Adapts (c : UInt32) (act : MachineM α) : Prop where
  advances : Always Machine.Advances act
  scales : ∀ ⦃m : Machine⦄, m.Fits c → ScalesAt c act m

/-- What the operation does is what another does from another machine on. -/
theorem ScalesAt.of_eq {m' : Machine} {act' : MachineM α} (h : ScalesAt c act' m')
    (heq : act m = act' m') (htight : act (m.withCapacity c) = act' (m'.withCapacity c)) :
    ScalesAt c act m := by
  have hstate : stateAfter act m = stateAfter act' m' := by unfold stateAfter; rw [heq]
  cases h with
  | exhausted hfatal => exact .exhausted (by unfold RunsOut; rw [heq]; exact hfatal)
  | fits hsize hsame => exact .fits (by rw [hstate]; exact hsize) (by rw [htight, heq]; exact hsame)
  | overflows hsize hfatal =>
    exact .overflows (by rw [hstate]; exact hsize) (by unfold RunsOut; rw [htight]; exact hfatal)

theorem RunsOut.bind (h : RunsOut act m) (f : α → MachineM β) : RunsOut (act >>= f) m := by
  obtain ⟨k, m', hfatal⟩ := h
  exact ⟨k, m', bind_eq_of_error hfatal⟩

theorem Adapts.bind {f : α → MachineM β} (h : Adapts c act) (hf : ∀ x, Adapts c (f x)) :
    Adapts c (act >>= f) := by
  refine ⟨h.advances.bind fun x => (hf x).advances, fun m hm => ?_⟩
  have hadvances := h.advances m
  cases hact : act m with
  | error e m₁ =>
    have hbind : (act >>= f) m = .error e m₁ := bind_eq_of_error hact
    have hstate := (stateAfter_of_error hbind).trans (stateAfter_of_error hact).symm
    cases h.scales hm with
    | exhausted hfatal => exact .exhausted (hfatal.bind f)
    | fits hsize hsame =>
      rw [hact] at hsame
      refine .fits (hstate ▸ hsize) ?_
      rw [hbind]
      exact bind_eq_of_error hsame
    | overflows hsize hfatal => exact .overflows (hstate ▸ hsize) (hfatal.bind f)
  | ok x m₁ =>
    have hbind : (act >>= f) m = f x m₁ := bind_eq_of_ok hact
    have hafter : stateAfter act m = m₁ := stateAfter_of_ok hact
    obtain ⟨haccounted, hconfig, -⟩ := (ends_ok hact).mp hadvances hm.accounted
    cases h.scales hm with
    | exhausted hfatal => exact .exhausted (hfatal.bind f)
    | fits hsize hsame =>
      rw [hact] at hsame
      rw [hafter] at hsize
      have hm₁ : m₁.Fits c := ⟨haccounted, hconfig ▸ hm.capacity_le, hsize⟩
      exact ((hf x).scales hm₁).of_eq hbind (bind_eq_of_ok hsame)
    | overflows hsize hfatal =>
      -- The table does not shrink any more.
      rw [hafter] at hsize
      refine .overflows (Nat.lt_of_lt_of_le hsize ?_) (hfatal.bind f)
      have hstate : stateAfter (act >>= f) m = stateAfter (f x) m₁ := by
        unfold stateAfter
        rw [hbind]
      rw [hstate]
      exact ((hf x).advances.stateAfter m₁ haccounted).2.2

theorem stateAfter_releasing (act : MachineM α) (m : Machine) :
    stateAfter (releasing act) m = (stateAfter act m).release m.temporaries.length := by
  cases hact : act m with
  | ok x m₁ => rw [stateAfter_of_ok (releasing_eq_ok hact), stateAfter_of_ok hact]
  | error e m₁ => rw [stateAfter_of_error (releasing_eq_error hact), stateAfter_of_error hact]

theorem RunsOut.releasing (h : RunsOut act m) : RunsOut (releasing act) m := by
  obtain ⟨k, m', hfatal⟩ := h
  exact ⟨k, _, releasing_eq_error hfatal⟩

theorem Adapts.releasing (h : Adapts c act) : Adapts c (releasing act) := by
  refine ⟨stepwise_advances.releasing h.advances, fun m hm => ?_⟩
  have hstate := stateAfter_releasing act m
  cases h.scales hm with
  | exhausted hfatal => exact .exhausted hfatal.releasing
  | fits hsize hsame =>
    refine .fits (hstate ▸ hsize) ?_
    cases hact : act m with
    | ok x m₁ =>
      rw [hact] at hsame
      rw [releasing_eq_ok hact, releasing_eq_ok hsame]
      rfl
    | error e m₁ =>
      rw [hact] at hsame
      rw [releasing_eq_error hact, releasing_eq_error hsame]
      rfl
  | overflows hsize hfatal => exact .overflows (hstate ▸ hsize) hfatal.releasing

/-- An operation that neither looks at the capacity nor makes the table grow. -/
theorem adapts_of_steady (hadvances : Always Machine.Advances act)
    (hsame : ∀ m : Machine, act (m.withCapacity c) = endWithCapacity c (act m))
    (hsize : ∀ m, (stateAfter act m).arena.slots.size = m.arena.slots.size) : Adapts c act :=
  ⟨hadvances, fun m hm => .fits (hsize m ▸ hm.size_le) (hsame m)⟩

theorem adapts_pure (x : α) : Adapts c (pure x : MachineM α) :=
  adapts_of_steady (stepwise_advances.pure x) (fun _ => rfl) fun _ => rfl

theorem adapts_throw (e : MachineError) : Adapts c (throw e : MachineM α) :=
  adapts_of_steady (stepwise_advances.throw e) (fun _ => rfl) fun _ => rfl

theorem adapts_lookup (name : String) : Adapts c (lookup name) := by
  refine adapts_of_steady (stepwise_advances.lookup name) (fun m => ?_) fun m => ?_
  · cases hname : m.bindings.get? name with
    | some slot => rw [lookup_eq_ok hname]; exact lookup_eq_ok hname
    | none => rw [lookup_eq_error hname]; exact lookup_eq_error hname
  · cases hname : m.bindings.get? name with
    | some slot => rw [stateAfter_of_ok (lookup_eq_ok hname)]
    | none => rw [stateAfter_of_error (lookup_eq_error hname)]

/-! ### Operations of the arena -/

theorem onArena_bind {act : ArenaM α} {f : α → ArenaM β} :
    onArena (act >>= f) = onArena act >>= fun x => onArena (f x) := by
  funext m
  cases hact : act m.arena with
  | ok x arena =>
    rw [bind_eq_of_ok (onArena_eq_ok hact), onArena, bind_eq_of_ok hact]
    rfl
  | error e arena =>
    rw [bind_eq_of_error (onArena_eq_error hact), onArena, bind_eq_of_error hact]

theorem adapts_onArena_bind {act : ArenaM α} {f : α → ArenaM β} (h : Adapts c (onArena act))
    (hf : ∀ x, Adapts c (onArena (f x))) : Adapts c (onArena (act >>= f)) := by
  rw [onArena_bind]
  exact h.bind hf

theorem adapts_onArena_pure (x : α) : Adapts c (onArena (pure x)) := adapts_pure x

/-- Reading does not depend on the capacity. -/
theorem adapts_reading {f : Arena → Except ArenaError α}
    (hf : ∀ a : Arena, f (a.withCapacity c) = f a) : Adapts c (reading f) := by
  have hend (m : Machine) : reading f (m.withCapacity c) = endWithCapacity c (reading f m) ∧
      stateAfter (reading f) m = m := by
    have hsame := hf m.arena
    cases hread : f m.arena with
    | ok x =>
      have hok := reading_eq_ok hread
      rw [hread] at hsame
      exact ⟨by rw [hok]; exact reading_eq_ok hsame, stateAfter_of_ok hok⟩
    | error e =>
      have herror : reading f m = .error (.arena e) m := onArena_eq_error (ArenaM.read_eq_error hread)
      rw [hread] at hsame
      exact ⟨by rw [herror]; exact onArena_eq_error (ArenaM.read_eq_error hsame),
        stateAfter_of_error herror⟩
  exact adapts_of_steady (always_reading f) (fun m => (hend m).1) fun m => by rw [(hend m).2]

theorem allocWith_withCapacity {a a' : Arena} {content : SlotId → Slot} {id : SlotId}
    (hroom : a.live < c.toNat) (hact : ArenaM.allocWith content a = .ok id a') :
    ArenaM.allocWith content (a.withCapacity c) = .ok id (a'.withCapacity c) := by
  have hfull : ¬ c.toNat ≤ a.live := Nat.not_le.mpr hroom
  unfold ArenaM.allocWith at hact
  split at hact
  · cases hact
  · cases hfree : a.free with
    | cons next free =>
      simp only [hfree] at hact
      cases hact
      simp only [ArenaM.allocWith, Arena.withCapacity, if_neg hfull, hfree]
    | nil =>
      simp only [hfree] at hact
      split at hact
      · next hindex =>
        cases hact
        simp only [ArenaM.allocWith, Arena.withCapacity, if_neg hfull, hfree, if_pos hindex]
      · cases hact

/-- An allocation runs out of slots under the capacity `c` exactly where the table would no longer fit:
it grows only when every entry is live. -/
theorem adapts_allocWith (content : SlotId → Slot) : Adapts c (onArena (.allocWith content)) := by
  refine ⟨always_of_arena Arena.Grows.advances (ArenaM.grows_allocWith content), fun m hm => ?_⟩
  have hends := hm.accounted.ends_allocWith content
  cases hact : ArenaM.allocWith content m.arena with
  | error e arena =>
    obtain ⟨-, rfl, -⟩ := (ends_error hact).mp hends
    exact .exhausted ⟨_, _, onArena_eq_error hact⟩
  | ok id arena =>
    obtain ⟨-, hallocated⟩ := (ends_ok hact).mp hends
    have hstate : (stateAfter (onArena (.allocWith content)) m).arena = arena := by
      rw [stateAfter_of_ok (onArena_eq_ok hact)]
    have hsize := hallocated.size_eq
    have hlive := hallocated.live_eq
    have hfits := hm.size_le
    by_cases hfull : c.toNat ≤ m.arena.live
    · refine .overflows (by rw [hstate]; omega) ⟨c, m.withCapacity c, onArena_eq_error ?_⟩
      unfold ArenaM.allocWith
      exact if_pos hfull
    · refine .fits (by rw [hstate]; omega) ?_
      rw [onArena_eq_ok hact]
      exact onArena_eq_ok (allocWith_withCapacity (Nat.not_le.mp hfull) hact)

theorem adapts_modifySlot (slot : SlotId) {f : Slot → Slot}
    (hf : ∀ s, (f s).body.map Body.shape = s.body.map Body.shape) :
    Adapts c (onArena (modify (·.modifySlot slot f))) := by
  refine adapts_of_steady
    (always_of_arena Arena.Grows.advances (ArenaM.grows_modifySlot slot hf)) (fun _ => rfl) fun m => ?_
  exact Array.size_modify

theorem adapts_setValue (slot : SlotId) (value : Value) :
    Adapts c (onArena (.setValue slot value)) :=
  adapts_onArena_bind (adapts_reading fun _ => rfl) fun _ => adapts_modifySlot slot fun _ => rfl

theorem adapts_modifyBody (slot : SlotId) {f : Body → Body} (hf : ∀ b, (f b).shape = b.shape) :
    Adapts c (onArena (.modifyBody slot f)) :=
  adapts_onArena_bind (adapts_reading fun _ => rfl) fun _ =>
    adapts_modifySlot slot fun s => Body.map_shape_map hf s.body

theorem adapts_onArena_read {f : Arena → Except ArenaError α} (hf : ArenaM.ReadsSlots f) :
    Adapts c (onArena (.read f)) := adapts_reading fun _ => hf rfl

/-- The operations of the arena compare with themselves in this way. -/
theorem writing_adapts (c : UInt32) : ArenaM.Writing fun act => Adapts c (onArena act) where
  pure := adapts_onArena_pure
  bind := adapts_onArena_bind
  read := adapts_onArena_read
  alloc _ := adapts_allocWith _
  allocBody _ _ := adapts_allocWith _
  setValue := adapts_setValue
  cutElements owner _ := adapts_modifyBody owner (Body.shape_mapElements _)
  putSlot owner _ _ _ := adapts_modifyBody owner (Body.shape_putSlot _ _)

/-! ### Steps and calls -/

theorem adapts_initialOutcome (name : String) : Adapts c (initialOutcome name none) := by
  have hrun (m : Machine) : ∃ outcome, ∀ m' : Machine, m'.bindings = m.bindings →
      initialOutcome name none m' = .ok outcome m' := by
    have hget (m : Machine) : (get : MachineM Machine) m = .ok m m := rfl
    cases hname : m.bindings.get? name with
    | some slot =>
      refine ⟨.aliased slot, fun m' hsame => (bind_eq_of_ok (hget m')).trans ?_⟩
      rw [hsame, hname]
      rfl
    | none =>
      refine ⟨.fresh .undefined, fun m' hsame => (bind_eq_of_ok (hget m')).trans ?_⟩
      rw [hsame, hname]
      rfl
  refine adapts_of_steady (stepwise_advances.initialOutcome name) (fun m => ?_) fun m => ?_
  · obtain ⟨outcome, hok⟩ := hrun m
    rw [hok m rfl]
    exact hok (m.withCapacity c) rfl
  · obtain ⟨outcome, hok⟩ := hrun m
    rw [stateAfter_of_ok (hok m rfl)]

theorem adapts_collect : Adapts c (modifyGet Machine.collect) := by
  refine adapts_of_steady stepwise_advances.collect (fun m => ?_) fun m => m.arena.size_collect m.roots
  show EStateM.Result.ok (m.withCapacity c).collect.1 (m.withCapacity c).collect.2 = _
  rw [Machine.collect_withCapacity]
  rfl

theorem adapts_callIntrinsic (intrinsic : Intrinsic) : Adapts c (callIntrinsic intrinsic) := by
  cases intrinsic with
  | liveSlots =>
    exact adapts_of_steady (stepwise_advances.callIntrinsic .liveSlots) (fun _ => rfl) fun _ => rfl
  | totalAllocations =>
    exact adapts_of_steady (stepwise_advances.callIntrinsic .totalAllocations) (fun _ => rfl)
      fun _ => rfl
  | collect => exact adapts_collect.bind fun _ => adapts_pure _

theorem adapts_removeBinding (name : String) : Adapts c (modifyGet (·.removeBinding name)) := by
  refine adapts_of_steady (stepwise_advances.removeBinding name) (fun m => ?_) fun m => ?_
  · show EStateM.Result.ok ((m.withCapacity c).removeBinding name).1
      ((m.withCapacity c).removeBinding name).2 = _
    rw [Machine.removeBinding_withCapacity]
    rfl
  · show (m.removeBinding name).2.arena.slots.size = _
    cases hname : m.bindings.get? name with
    | none => rw [Machine.removeBinding_of_none hname]
    | some slot =>
      rw [Machine.removeBinding_of_some hname]
      split
      · exact m.arena.size_collect _
      · rfl

/-- What adapts the steps, adapts the calls. -/
theorem stepwise_adapts (c : UInt32) : Stepwise (Adapts c) where
  pure := adapts_pure
  throw := adapts_throw
  bind := Adapts.bind
  releasing := Adapts.releasing
  lookup := adapts_lookup
  initialOutcome := adapts_initialOutcome
  resolve outcome := adapts_onArena_read (ArenaM.readsSlots_resolve outcome)
  getProperty _ _ := adapts_reading fun _ => rfl
  holdReference r := adapts_of_steady (stepwise_advances.holdReference r) (fun _ => rfl) fun _ => rfl
  callIntrinsic := adapts_callIntrinsic
  build := (writing_adapts c).build
  bindingSlot := (writing_adapts c).bindingSlot
  setValue := adapts_setValue
  setProperty := (writing_adapts c).setProperty
  bindName name slot :=
    adapts_of_steady (stepwise_advances.bindName name slot) (fun _ => rfl) fun _ => rfl
  removeBinding := adapts_removeBinding
  collect := adapts_collect

end MachineM

/-! ### Sessions -/

namespace Machine

open MachineM

variable {c : UInt32} {m : Machine}

/-- A call ran out of slots. -/
def ranOut : Except MachineError Reply → Bool
  | .error (.arena (.exhausted _)) => true
  | _ => false

theorem ranOut_of_runsOut {call : HostCall} (h : RunsOut call.perform m) :
    ranOut (resultOf call.perform m) = true := by
  obtain ⟨k, m', hfails⟩ := h
  rw [resultOf, hfails]
  rfl

theorem end_of_eq_endWithCapacity {call : HostCall}
    (h : call.perform (m.withCapacity c) = endWithCapacity c (call.perform m)) :
    resultOf call.perform (m.withCapacity c) = resultOf call.perform m ∧
      stateAfter call.perform (m.withCapacity c) = (stateAfter call.perform m).withCapacity c := by
  rw [resultOf, resultOf, stateAfter, stateAfter, h]
  cases call.perform m <;> exact ⟨rfl, rfl⟩

/-- A session under the capacity `c`, from a machine on whose table fits in it. -/
theorem Fits.session (h : m.Fits c) {calls : List HostCall}
    (hroom : ∀ step ∈ m.session calls, ranOut step.1 = false) :
    let tight := (m.withCapacity c).session calls
    let first := tight.findIdx (ranOut ·.1)
    first = (m.session calls).findIdx (c.toNat < ·.2.arena.slots.size) ∧
      tight.take first =
        ((m.session calls).take first).map fun step => (step.1, step.2.withCapacity c) := by
  intro tight first
  induction calls generalizing m with
  | nil => exact ⟨rfl, rfl⟩
  | cons call calls ih =>
    obtain ⟨hadvances, hscales⟩ := (stepwise_adapts c).perform call
    obtain ⟨haccounted, hconfig, -⟩ := hadvances.stateAfter m h.accounted
    rw [session_cons] at hroom
    obtain ⟨hhead, hrest⟩ := List.forall_mem_cons.mp hroom
    simp only [first, tight, session_cons, List.findIdx_cons]
    cases hscales h with
    | exhausted hfatal => rw [ranOut_of_runsOut hfatal] at hhead; cases hhead
    | fits hsize hsame =>
      have hfits : (stateAfter call.perform m).Fits c :=
        ⟨haccounted, hconfig ▸ h.capacity_le, hsize⟩
      obtain ⟨hfirst, htake⟩ := ih hfits hrest
      obtain ⟨hresult, hstate⟩ := end_of_eq_endWithCapacity hsame
      rw [hresult, hstate, hhead, decide_eq_false (Nat.not_lt.mpr hsize), cond_false, cond_false]
      refine ⟨congrArg (· + 1) hfirst, ?_⟩
      rw [List.take_succ_cons, List.take_succ_cons, List.map_cons, htake]
    | overflows hsize hfatal =>
      rw [ranOut_of_runsOut hfatal, decide_eq_true hsize]
      exact ⟨rfl, rfl⟩

/-- **Capacity matters only where it is used up.** Take a session that never runs out of slots, and run
it with a smaller capacity. The first call to run out of slots is then the first after which the table of
the other machine has more entries than that capacity. Up to that call every call returns the same, and
the machines differ in nothing but the capacity. -/
theorem session_withCapacity (config : MachineConfig) {c : UInt32} (hc : c ≤ config.arena.capacity)
    (calls : List HostCall)
    (hroom : ∀ step ∈ (new config).session calls, ∀ k, step.1 ≠ .error (.arena (.exhausted k))) :
    let roomy := (new config).session calls
    let tight := (new { config with arena := { config.arena with capacity := c } }).session calls
    let first := tight.findIdx (ranOut ·.1)
    first = roomy.findIdx (c.toNat < ·.2.arena.slots.size) ∧
      tight.take first = (roomy.take first).map fun step => (step.1, step.2.withCapacity c) := by
  have hfits : (new config).Fits c := ⟨Arena.accounted_new config.arena, hc, Nat.zero_le _⟩
  refine hfits.session fun step hstep => ?_
  have hnever := hroom step hstep
  cases hresult : step.1 with
  | ok reply => rfl
  | error e =>
    cases e with
    | arena e =>
      cases e with
      | exhausted k => exact absurd hresult (hnever k)
      | _ => rfl
    | _ => rfl

/-- With two slots the second declaration does not get its array; with eight it does. -/
theorem session_withCapacity_exhausted :
    let config : MachineConfig := { arena := { capacity := 8, reclamation := .markSweep } }
    let calls : List HostCall :=
      [.declare "a" (some (.array [.literal .null])), .declare "b" (some (.array [])), .eval (.name "b")]
    let roomy := (new config).session calls
    let tight := (new { config with arena := { config.arena with capacity := 2 } }).session calls
    let first := tight.findIdx (ranOut ·.1)
    (2 ≤ config.arena.capacity ∧
      ∀ step ∈ roomy, ∀ k, step.1 ≠ .error (.arena (.exhausted k))) ∧
    first = 1 ∧ first = roomy.findIdx (2 < ·.2.arena.slots.size) ∧
      tight.take first = (roomy.take first).map fun step => (step.1, step.2.withCapacity 2) := by
  intro config calls roomy tight first
  have hroom : ∀ step ∈ roomy, ∀ k, step.1 ≠ .error (.arena (.exhausted k)) := by
    have hall : (roomy.all fun step => !ranOut step.1) = true := by decide +kernel
    intro step hstep k herror
    have hstep := List.all_eq_true.mp hall step hstep
    rw [herror] at hstep
    cases hstep
  have hcapacity : 2 ≤ config.arena.capacity := by decide
  exact ⟨⟨hcapacity, hroom⟩, by decide +kernel, session_withCapacity config hcapacity calls hroom⟩

end Machine

end SlotScript
