/-
# `MetaRecord.Proofs.Outcome` — computations that end well or fail

Decoding fails or gives a value; the tool's commands do the same and act on a
state besides.  For both, a result tells how each step in front of it ended.
-/
import Mathlib.Data.List.Basic

namespace MetaRecord

/-! ## Outcomes -/

section Outcome

variable {ε ε' α β : Type}

theorem ok_bind (a : α) (f : α → Except ε β) : (Except.ok a >>= f) = f a := rfl

theorem error_bind (e : ε) (f : α → Except ε β) : (Except.error e >>= f) = .error e := rfl

theorem mapError_ok (a : α) (g : ε → ε') : (Except.ok a : Except ε α).mapError g = .ok a := rfl

theorem mapError_error (e : ε) (g : ε → ε') :
    (Except.error e : Except ε α).mapError g = .error (g e) := rfl

theorem bind_eq_ok {x : Except ε α} {f : α → Except ε β} {b : β} :
    (x >>= f) = .ok b ↔ ∃ a, x = .ok a ∧ f a = .ok b := by
  cases x with
  | error e => simp [error_bind]
  | ok a => simp [ok_bind]

theorem mapError_eq_ok {x : Except ε α} {g : ε → ε'} {a : α} :
    x.mapError g = .ok a ↔ x = .ok a := by
  cases x with
  | error e => simp [mapError_error]
  | ok b => simp [mapError_ok]

theorem mapError_eq_error {x : Except ε α} {g : ε → ε'} {e' : ε'} :
    x.mapError g = .error e' ↔ ∃ e, x = .error e ∧ g e = e' := by
  cases x with
  | error e => simp [mapError_error]
  | ok b => simp [mapError_ok]

theorem bind_eq_error {x : Except ε α} {f : α → Except ε β} {e : ε} :
    (x >>= f) = .error e ↔ x = .error e ∨ ∃ a, x = .ok a ∧ f a = .error e := by
  cases x with
  | error e => simp [error_bind]
  | ok a => simp [ok_bind]

theorem throw_ne_ok {e : ε} {a : α} : (throw e : Except ε α) ≠ .ok a := fun h => nomatch h

/-- A fold whose step fails on some items, whatever the state, fails if one of
them is there. -/
theorem exists_foldlM_eq_error_iff {f : β → α → Except ε β} {bad : α → Prop}
    (hf : ∀ b a, (∃ e, f b a = .error e) ↔ bad a) :
    ∀ (items : List α) (b : β), (∃ e, items.foldlM f b = .error e) ↔ ∃ a ∈ items, bad a
  | [], b => by simp [Pure.pure, Except.pure]
  | a :: items, b => by
      rw [List.foldlM_cons, List.exists_mem_cons_iff, ← hf b a]
      cases hstep : f b a with
      | error e =>
          rw [error_bind]
          exact ⟨fun _ => Or.inl ⟨e, rfl⟩, fun _ => ⟨e, rfl⟩⟩
      | ok b' =>
          rw [ok_bind, exists_foldlM_eq_error_iff hf items b']
          simp

end Outcome

/-! ## Outcomes and states -/

section Run

variable {ε σ α β : Type} {x : ExceptT ε (StateM σ) α} {f : α → ExceptT ε (StateM σ) β}
  {s s' : σ}

theorem run_bind_eq_ok {b : β} :
    (x >>= f).run.run s = (.ok b, s') ↔
      ∃ a s₁, x.run.run s = (.ok a, s₁) ∧ (f a).run.run s₁ = (.ok b, s') := by
  rw [ExceptT.run_bind, StateT.run_bind]
  generalize x.run.run s = result
  obtain ⟨outcome, s₁⟩ := result
  constructor
  · intro h
    cases outcome with
    | error e => exact nomatch (Prod.mk.inj h).1
    | ok a => exact ⟨a, s₁, rfl, h⟩
  · rintro ⟨a, _, ⟨⟩, h⟩
    exact h

/-- Whatever comes of a sequence, either its first step failed or the rest went
on from there. -/
theorem run_bind_cases {outcome : Except ε β} (h : (x >>= f).run.run s = (outcome, s')) :
    (∃ e, x.run.run s = (.error e, s')) ∨
      ∃ a s₁, x.run.run s = (.ok a, s₁) ∧ (f a).run.run s₁ = (outcome, s') := by
  rw [ExceptT.run_bind, StateT.run_bind] at h
  generalize x.run.run s = result at h
  obtain ⟨e | a, s₁⟩ := result
  · exact Or.inl ⟨e, congrArg (Prod.mk _) (Prod.mk.inj h).2⟩
  · exact Or.inr ⟨a, s₁, rfl, h⟩

theorem run_bind_eq_error {e : ε} :
    (x >>= f).run.run s = (.error e, s') ↔
      x.run.run s = (.error e, s') ∨
        ∃ a s₁, x.run.run s = (.ok a, s₁) ∧ (f a).run.run s₁ = (.error e, s') := by
  rw [ExceptT.run_bind, StateT.run_bind]
  generalize x.run.run s = result
  obtain ⟨e' | a, s₁⟩ := result
  · show ((Except.error e', s₁) : Except ε β × σ) = _ ↔ _
    constructor
    · intro h
      obtain ⟨⟨⟩, rfl⟩ := Prod.mk.inj h
      exact Or.inl rfl
    · rintro (h | ⟨_, _, h, -⟩)
      · obtain ⟨⟨⟩, rfl⟩ := Prod.mk.inj h
        rfl
      · exact nomatch (Prod.mk.inj h).1
  · show (f a).run.run s₁ = _ ↔ _
    constructor
    · exact fun h => Or.inr ⟨a, s₁, rfl, h⟩
    · rintro (h | ⟨_, _, h, hrest⟩)
      · exact nomatch (Prod.mk.inj h).1
      · obtain ⟨⟨⟩, rfl⟩ := Prod.mk.inj h
        exact hrest

theorem run_bind_of_ok {a : α} {s₁ : σ} (h : x.run.run s = (.ok a, s₁)) :
    (x >>= f).run.run s = (f a).run.run s₁ := by
  rw [ExceptT.run_bind, StateT.run_bind, h]
  rfl

theorem run_pure_eq_ok {a b : α} :
    (pure a : ExceptT ε (StateM σ) α).run.run s = (.ok b, s') ↔ a = b ∧ s = s' := by
  constructor
  · rintro ⟨⟩
    exact ⟨rfl, rfl⟩
  · rintro ⟨rfl, rfl⟩
    rfl

theorem run_throw_ne_ok {e : ε} {a : α} :
    (throw e : ExceptT ε (StateM σ) α).run.run s ≠ (.ok a, s') := fun h =>
  nomatch (Prod.mk.inj h).1

/-- A step that only acts on the state does not fail. -/
theorem run_lift_eq_ok {op : StateM σ α} {a : α} :
    (liftM op : ExceptT ε (StateM σ) α).run.run s = (.ok a, s') ↔ op.run s = (a, s') := by
  constructor
  · rintro ⟨⟩
    rfl
  · intro h
    show (Except.ok (op.run s).1, (op.run s).2) = _
    rw [h]

theorem run_lift_bind (op : StateM σ α) (f : α → ExceptT ε (StateM σ) β) (s : σ) :
    ((liftM op : ExceptT ε (StateM σ) α) >>= f).run.run s =
      (f (op.run s).1).run.run (op.run s).2 := rfl

/-- An outcome that is known, with the state it comes with. -/
theorem eq_mk_snd {outcome : α × σ} {a : α} (h : outcome.1 = a) : outcome = (a, outcome.2) := by
  rw [← h]

/-- An outcome whose value is known, with the state it comes with. -/
theorem eq_ok_of_toOption {outcome : Except ε α × σ} {a : α}
    (h : outcome.1.toOption = some a) : outcome = (.ok a, outcome.2) := by
  obtain ⟨_ | b, s⟩ := outcome
  · exact nomatch h
  · rw [Option.some.inj h]

end Run

end MetaRecord
