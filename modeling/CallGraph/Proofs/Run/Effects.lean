import CallGraph.Run

/-!
What steps with state and faults do. `Has view x R` says that `x` ends without a fault exactly as
the relation `R` tells, and that nothing but what `view` shows of the state matters for that. The
relations of the parts of a computation compose to the relation of the whole. `Pass step` is a loop
that takes one step for each of its inputs.
-/

namespace CallGraph

variable {ε σ V α β : Type}

theorem run_bind (x : ExceptT ε (StateM σ) α) (f : α → ExceptT ε (StateM σ) β) (s : σ) :
    (x >>= f).run s =
      match x.run s with
      | (.ok a, s') => (f a).run s'
      | (.error e, s') => (.error e, s') := by
  change ExceptT.bindCont f (x.run s).1 (x.run s).2 = _
  rcases x.run s with ⟨_ | a, s'⟩ <;> rfl

theorem run_bind_eq_ok {x : ExceptT ε (StateM σ) α} {f : α → ExceptT ε (StateM σ) β} {s s'' : σ}
    {b : β} :
    (x >>= f).run s = (.ok b, s'') ↔
      ∃ a s', x.run s = (.ok a, s') ∧ (f a).run s' = (.ok b, s'') := by
  rw [run_bind]
  rcases x.run s with ⟨e | a, s'⟩
  · constructor
    · intro h
      cases h
    · rintro ⟨a, s₁, h, -⟩
      cases h
  · constructor
    · intro h
      exact ⟨a, s', rfl, h⟩
    · rintro ⟨a', s₁, h, hf⟩
      cases h
      exact hf

theorem run_tryCatch (x : ExceptT ε (StateM σ) α) (h : ε → ExceptT ε (StateM σ) α) (s : σ) :
    (tryCatch x h).run s =
      match x.run s with
      | (.ok a, s') => (.ok a, s')
      | (.error e, s') => (h e).run s' := by
  change (match (x.run s).1 with | .ok a => Pure.pure (Except.ok a) | .error e => (h e).run :
    StateM σ (Except ε α)) (x.run s).2 = _
  rcases x.run s with ⟨_ | a, s'⟩ <;> rfl

/-- What a step does, if it ends without a fault. -/
structure Has (view : σ → V) (x : ExceptT ε (StateM σ) α) (R : V → α → V → Prop) : Prop where
  sound {s s' : σ} {a : α} : x.run s = (.ok a, s') → R (view s) a (view s')
  complete {s : σ} {a : α} {v : V} : R (view s) a v → ∃ s', x.run s = (.ok a, s') ∧ view s' = v

namespace Has

variable {view : σ → V} {x : ExceptT ε (StateM σ) α} {R R' : V → α → V → Prop}

theorem congr (hx : Has view x R) (h : ∀ v a v', R v a v' ↔ R' v a v') : Has view x R' where
  sound hrun := (h _ _ _).1 (hx.sound hrun)
  complete hR := hx.complete ((h _ _ _).2 hR)

/-- What a step does is determined by what is in view. -/
theorem unique (hx : Has view x R) (s : σ) {a₁ a₂ : α} {v₁ v₂ : V} (h₁ : R (view s) a₁ v₁)
    (h₂ : R (view s) a₂ v₂) : a₁ = a₂ ∧ v₁ = v₂ := by
  obtain ⟨s₁, hrun₁, rfl⟩ := hx.complete h₁
  obtain ⟨s₂, hrun₂, rfl⟩ := hx.complete h₂
  rw [hrun₁] at hrun₂
  cases hrun₂
  exact ⟨rfl, rfl⟩

/-- Steps that end without a fault in the same way do the same. -/
theorem of_run_iff {y : ExceptT ε (StateM σ) α} (hx : Has view x R)
    (h : ∀ s a s', y.run s = (.ok a, s') ↔ x.run s = (.ok a, s')) : Has view y R where
  sound hrun := hx.sound ((h _ _ _).1 hrun)
  complete hR := by
    obtain ⟨s', hrun, hview⟩ := hx.complete hR
    exact ⟨s', (h _ _ _).2 hrun, hview⟩

theorem pure (a : α) :
    Has view (Pure.pure a : ExceptT ε (StateM σ) α) (fun v b v' => b = a ∧ v' = v) where
  sound hrun := by
    cases hrun
    exact ⟨rfl, rfl⟩
  complete := by
    rintro s _ _ ⟨rfl, rfl⟩
    exact ⟨s, rfl, rfl⟩

/-- As `pure`, where the result is told by a predicate that holds of nothing else. -/
theorem pure_of {a : α} {P : V → α → Prop} (h : ∀ v b, P v b ↔ b = a) :
    Has view (Pure.pure a : ExceptT ε (StateM σ) α) (fun v b v' => P v b ∧ v' = v) :=
  (pure a).congr fun v b v' => by rw [h v b]

theorem bind {f : α → ExceptT ε (StateM σ) β} {S : α → V → β → V → Prop} (hx : Has view x R)
    (hf : ∀ a, Has view (f a) (S a)) :
    Has view (x >>= f) (fun v b v'' => ∃ a v', R v a v' ∧ S a v' b v'') where
  sound hrun := by
    obtain ⟨a, s', hxrun, hfrun⟩ := run_bind_eq_ok.1 hrun
    exact ⟨a, view s', hx.sound hxrun, (hf a).sound hfrun⟩
  complete := by
    rintro s b v'' ⟨a, v', hR, hS⟩
    obtain ⟨s', hxrun, rfl⟩ := hx.complete hR
    obtain ⟨s'', hfrun, rfl⟩ := (hf a).complete hS
    exact ⟨s'', run_bind_eq_ok.2 ⟨a, s', hxrun, hfrun⟩, rfl⟩

/-- A fault after a step that ends without one. -/
theorem bind_error {f : α → ExceptT ε (StateM σ) β} {s : σ} {a : α} {v : V} {e : ε}
    (hx : Has view x R) (hR : R (view s) a v)
    (hf : ∀ s', view s' = v → ∃ s'', (f a).run s' = (.error e, s'')) :
    ∃ s'', (x >>= f).run s = (.error e, s'') := by
  obtain ⟨s', hrun, hview⟩ := hx.complete hR
  obtain ⟨s'', hfault⟩ := hf s' hview
  exact ⟨s'', by rw [run_bind, hrun, ← hfault]⟩

/-- A step that changes nothing in view can be left out. -/
theorem silent_bind {x : ExceptT ε (StateM σ) Unit} {y : ExceptT ε (StateM σ) β}
    {S : V → β → V → Prop} (hx : Has view x fun v _ v' => v' = v) (hy : Has view y S) :
    Has view (x >>= fun _ => y) S := by
  refine (hx.bind fun _ => hy).congr fun v b v'' => ?_
  constructor
  · rintro ⟨_, v', rfl, hS⟩
    exact hS
  · intro hS
    exact ⟨(), v, rfl, hS⟩

/-- The state that was read is the present one. -/
theorem get_bind {f : σ → ExceptT ε (StateM σ) β} {S : V → V → β → V → Prop}
    (hf : ∀ s, Has view (f s) (S (view s))) : Has view (get >>= f) (fun v b v' => S v v b v') where
  sound hrun := (hf _).sound hrun
  complete hS := (hf _).complete hS

theorem get_bind_of {f : σ → ExceptT ε (StateM σ) β} {S : V → β → V → Prop}
    (hf : ∀ s, Has view (f s) S) : Has view (get >>= f) S :=
  get_bind fun s => hf s

theorem set (s : σ) :
    Has view (MonadState.set s : ExceptT ε (StateM σ) PUnit) (fun _ _ v' => v' = view s) where
  sound hrun := by
    cases hrun
    rfl
  complete h := ⟨s, rfl, h.symm⟩

/-- A fault ends a step, which then does nothing else. -/
theorem throw_of (e : ε) (h : ∀ v a v', ¬ R v a v') :
    Has view (MonadExcept.throw e : ExceptT ε (StateM σ) α) R where
  sound hrun := by cases hrun
  complete hR := absurd hR (h _ _ _)

end Has

/-! ## Loops -/

section Loops

variable {ι ο : Type} {step : σ → ι → ο → σ → Prop}

/-- One step for each input, with the results of the steps. -/
inductive Pass (step : σ → ι → ο → σ → Prop) : σ → List (ι × ο) → σ → Prop
  | nil (s : σ) : Pass step s [] s
  | cons {s s' s'' : σ} {i : ι} {o : ο} {rows : List (ι × ο)} (hfirst : step s i o s')
    (hrest : Pass step s' rows s'') : Pass step s ((i, o) :: rows) s''

namespace Pass

/-- What each step keeps is kept. -/
theorem invariant {P : σ → Prop} (hstep : ∀ s i o s', step s i o s' → P s → P s') {s s' : σ}
    {rows : List (ι × ο)} (hpass : Pass step s rows s') (hs : P s) : P s' := by
  induction hpass with
  | nil => exact hs
  | cons hfirst hrest ih => exact ih (hstep _ _ _ _ hfirst hs)

variable (hdet : ∀ s i o₁ s₁ o₂ s₂, step s i o₁ s₁ → step s i o₂ s₂ → o₁ = o₂ ∧ s₁ = s₂)
include hdet

/-- If steps have one result only, a loop has one way to go. -/
theorem unique {s s₁ s₂ : σ} {rows₁ rows₂ : List (ι × ο)} (h₁ : Pass step s rows₁ s₁)
    (h₂ : Pass step s rows₂ s₂) (hinputs : rows₁.map (·.1) = rows₂.map (·.1)) :
    rows₁ = rows₂ ∧ s₁ = s₂ := by
  induction h₁ generalizing rows₂ with
  | nil s =>
    rw [List.map_nil, eq_comm, List.map_eq_nil_iff] at hinputs
    subst hinputs
    cases h₂
    exact ⟨rfl, rfl⟩
  | cons hfirst hrest ih =>
    cases h₂ with
    | nil => cases hinputs
    | cons hfirst₂ hrest₂ =>
      rw [List.map_cons, List.map_cons, List.cons.injEq] at hinputs
      obtain ⟨rfl, hinputs⟩ := hinputs
      obtain ⟨rfl, rfl⟩ := hdet _ _ _ _ _ _ hfirst hfirst₂
      obtain ⟨rfl, rfl⟩ := ih hrest₂ hinputs
      exact ⟨rfl, rfl⟩

/-- A loop that goes through its inputs is not stuck at one of them. -/
theorem not_stuck {s s' s₁ : σ} {rows done : List (ι × ο)} {i : ι} {rest : List ι}
    (hpass : Pass step s rows s') (hinputs : rows.map (·.1) = done.map (·.1) ++ i :: rest)
    (hdone : Pass step s done s₁) : ∃ o s'', step s₁ i o s'' := by
  induction hdone generalizing rows with
  | nil s =>
    cases hpass with
    | nil => cases hinputs
    | cons hfirst hrest =>
      rw [List.map_cons, List.map_nil, List.nil_append, List.cons.injEq] at hinputs
      obtain ⟨rfl, -⟩ := hinputs
      exact ⟨_, _, hfirst⟩
  | cons hfirst hrest ih =>
    cases hpass with
    | nil => cases hinputs
    | cons hfirst' hrest' =>
      rw [List.map_cons, List.map_cons, List.cons_append, List.cons.injEq] at hinputs
      obtain ⟨rfl, hinputs⟩ := hinputs
      obtain ⟨rfl, rfl⟩ := hdet _ _ _ _ _ _ hfirst hfirst'
      exact ih hrest' hinputs

end Pass

end Loops

end CallGraph
