import SlotScript.Proofs.Ends
import SlotScript.Slot

/-!
# One run follows another

Two runs of the same program can use different slots. A `Twin` is a pair of states with a renaming of
the slots of the first into those of the second. `Follows` says that the operation on the first state
ends as the one on the second does, unless that ends in a fatal error; `R` relates the twins before
and after, as in `EndsVia`.
-/

namespace SlotScript

/-- Two states, and a renaming of the slots of the first into slots of the second. -/
structure Twin (σ : Type) where
  image : SlotId → SlotId
  swept : σ
  full : σ

/-- Unless `act'` ends in a fatal error, `act` ends in the same way: in results that `ok` relates, or
in the same error. -/
def Follows {ε σ α β : Type} (R : Twin σ → Twin σ → Prop) (fatal : ε → Bool) (act : EStateM ε σ α)
    (act' : EStateM ε σ β) (p : Twin σ) (ok : α → β → Twin σ → Prop) : Prop :=
  Ends act' p.full
    (fun y full => ∃ x swept ρ, act p.swept = .ok x swept ∧ R p ⟨ρ, swept, full⟩ ∧
      ok x y ⟨ρ, swept, full⟩)
    fun e full => fatal e ∨ ∃ swept ρ, act p.swept = .error e swept ∧ R p ⟨ρ, swept, full⟩

section

variable {ε σ α β α' β' : Type} {R R' : Twin σ → Twin σ → Prop} {fatal : ε → Bool}
  {act : EStateM ε σ α} {act' : EStateM ε σ β} {p : Twin σ} {ok ok' : α → β → Twin σ → Prop}

theorem Follows.mono (h : Follows R fatal act act' p ok) (hR : ∀ q, R p q → R' p q)
    (hok : ∀ x y q, R p q → ok x y q → ok' x y q) : Follows R' fatal act act' p ok' := by
  refine Ends.mono h ?_ ?_
  · rintro y full ⟨x, swept, ρ, hact, hp, hx⟩
    exact ⟨x, swept, ρ, hact, hR _ hp, hok x y _ hp hx⟩
  · rintro e full (hfatal | ⟨swept, ρ, hact, hp⟩)
    · exact .inl hfatal
    · exact .inr ⟨swept, ρ, hact, hR _ hp⟩

theorem follows_of_ok {x : α} {y : β} {swept full : σ} (ρ : SlotId → SlotId)
    (hact : act p.swept = .ok x swept) (hact' : act' p.full = .ok y full)
    (hp : R p ⟨ρ, swept, full⟩) (hx : ok x y ⟨ρ, swept, full⟩) :
    Follows R fatal act act' p ok := (ends_ok hact').mpr ⟨x, swept, ρ, hact, hp, hx⟩

theorem follows_of_error {e : ε} {swept full : σ} (ρ : SlotId → SlotId)
    (hact : act p.swept = .error e swept) (hact' : act' p.full = .error e full)
    (hp : R p ⟨ρ, swept, full⟩) : Follows R fatal act act' p ok :=
  (ends_error hact').mpr (.inr ⟨swept, ρ, hact, hp⟩)

theorem follows_pure {x : α} {y : β} (hp : R p p) (hx : ok x y p) :
    Follows R fatal (pure x) (pure y) p ok := follows_of_ok p.image rfl rfl hp hx

theorem follows_throw {e : ε} (hp : R p p) :
    Follows R fatal (throw e : EStateM ε σ α) (throw e : EStateM ε σ β) p ok :=
  follows_of_error p.image rfl rfl hp

/-- Operations that follow each other, one pair after the other. `R` may be left for a weaker
relation. -/
theorem Follows.bindTo {f : α → EStateM ε σ α'} {f' : β → EStateM ε σ β'}
    {ok' : α' → β' → Twin σ → Prop} (h : Follows R fatal act act' p ok) (hR : ∀ q, R p q → R' p q)
    (htrans : ∀ q r, R p q → R' q r → R' p r)
    (hf : ∀ x y q, R p q → ok x y q → Follows R' fatal (f x) (f' y) q ok') :
    Follows R' fatal (act >>= f) (act' >>= f') p ok' := by
  unfold Follows
  rw [ends_bind]
  refine Ends.mono h ?_ ?_
  · rintro y full ⟨x, swept, ρ, hact, hp, hx⟩
    rw [bind_eq_of_ok hact]
    refine Ends.mono (hf x y ⟨ρ, swept, full⟩ hp hx) ?_ ?_
    · rintro y' full' ⟨x', swept', ρ', hact', hq, hx'⟩
      exact ⟨x', swept', ρ', hact', htrans _ _ hp hq, hx'⟩
    · rintro e full' (hfatal | ⟨swept', ρ', hact', hq⟩)
      · exact .inl hfatal
      · exact .inr ⟨swept', ρ', hact', htrans _ _ hp hq⟩
  · rintro e full (hfatal | ⟨swept, ρ, hact, hp⟩)
    · exact .inl hfatal
    · exact .inr ⟨swept, ρ, bind_eq_of_error hact, hR _ hp⟩

theorem Follows.bind [IsTrans (Twin σ) R] {f : α → EStateM ε σ α'} {f' : β → EStateM ε σ β'}
    {ok' : α' → β' → Twin σ → Prop} (h : Follows R fatal act act' p ok)
    (hf : ∀ x y q, R p q → ok x y q → Follows R fatal (f x) (f' y) q ok') :
    Follows R fatal (act >>= f) (act' >>= f') p ok' :=
  h.bindTo (fun _ hp => hp) (fun _ _ hp hq => trans_of R hp hq) hf

theorem Follows.map {f : α → α'} {f' : β → β'} {ok' : α' → β' → Twin σ → Prop}
    (h : Follows R fatal act act' p ok) (hf : ∀ x y q, R p q → ok x y q → ok' (f x) (f' y) q) :
    Follows R fatal (f <$> act) (f' <$> act') p ok' := by
  rw [map_eq_pure_bind, map_eq_pure_bind]
  unfold Follows
  rw [ends_bind]
  refine Ends.mono h ?_ ?_
  · rintro y full ⟨x, swept, ρ, hact, hp, hx⟩
    exact ⟨f x, swept, ρ, bind_eq_of_ok hact, hp, hf x y _ hp hx⟩
  · rintro e full (hfatal | ⟨swept, ρ, hact, hp⟩)
    · exact .inl hfatal
    · exact .inr ⟨swept, ρ, bind_eq_of_error hact, hp⟩

/-- Operations that succeed and change nothing pass their results on. -/
theorem follows_bind_of_ok {f : α → EStateM ε σ α'} {f' : β → EStateM ε σ β'}
    {ok' : α' → β' → Twin σ → Prop} {x : α} {y : β} (hact : act p.swept = .ok x p.swept)
    (hact' : act' p.full = .ok y p.full) (h : Follows R fatal (f x) (f' y) p ok') :
    Follows R fatal (act >>= f) (act' >>= f') p ok' := by
  unfold Follows
  rw [ends_bind, ends_ok hact', bind_eq_of_ok hact]
  exact h

end

end SlotScript
