import Mathlib.Order.Defs.Unbundled

/-!
# Runs of state-passing computations that may fail

A computation of `ExceptT ε (StateM σ)` runs from a state to an outcome and an
end state; the state it reached stays when it fails. `run` names that run,
and its lemmas compute it through `pure`, `throw`, `get`, `modify`, `bind`,
`tryCatch` and `List.forM`.

A relation between the start and the end state that every step of a
computation keeps, whatever the step's outcome, is kept by the whole
computation when it is transitive: `rel_bind` is the rule for a sequence,
and it hands the continuation the value the first part returned, so that a
proof can follow the computation's own case splits.

Results:
* `run_bind`, `run_bind_ok`: a sequence runs its parts in order; a successful
  one is made of successful parts; `bind_eq_ok` is the same for plain
  `Except`.
* `rel_bind`, `rel_tryCatch`, `rel_forM`: a transitive relation kept by the
  parts is kept by the whole.
* `Keeps.bind`, `Keeps.ite`, `Keeps.tryCatch`, `Keeps.forM`: the same rules
  for `Keeps R x`, that every run of `x` keeps `R`, so that a proof about a
  program follows the program's text.
-/

namespace ExceptState

variable {ε σ α β : Type}

/-- The outcome and end state of `x` from `s`. -/
def run (x : ExceptT ε (StateM σ) α) (s : σ) : Except ε α × σ :=
  x.run.run s

@[simp]
theorem run_pure (a : α) (s : σ) : run (pure a : ExceptT ε (StateM σ) α) s = (.ok a, s) := rfl

@[simp]
theorem run_throw (e : ε) (s : σ) : run (throw e : ExceptT ε (StateM σ) α) s = (.error e, s) :=
  rfl

@[simp]
theorem run_get (s : σ) : run (get : ExceptT ε (StateM σ) σ) s = (.ok s, s) := rfl

@[simp]
theorem run_modify (f : σ → σ) (s : σ) :
    run (modify f : ExceptT ε (StateM σ) Unit) s = (.ok (), f s) := rfl

theorem run_bind (x : ExceptT ε (StateM σ) α) (f : α → ExceptT ε (StateM σ) β) (s : σ) :
    run (x >>= f) s =
      match run x s with
      | (.ok a, s') => run (f a) s'
      | (.error e, s') => (.error e, s') := by
  simp only [run, ExceptT.run_bind, StateT.run_bind]
  rcases x.run.run s with ⟨_ | a, s'⟩ <;> rfl

@[simp]
theorem run_bind_of_ok {x : ExceptT ε (StateM σ) α} {f : α → ExceptT ε (StateM σ) β} {s s' : σ}
    {a : α} (h : run x s = (.ok a, s')) : run (x >>= f) s = run (f a) s' := by
  rw [run_bind, h]

@[simp]
theorem run_bind_of_error {x : ExceptT ε (StateM σ) α} {f : α → ExceptT ε (StateM σ) β}
    {s s' : σ} {e : ε} (h : run x s = (.error e, s')) : run (x >>= f) s = (.error e, s') := by
  rw [run_bind, h]

@[simp]
theorem run_throw_bind (e : ε) (f : α → ExceptT ε (StateM σ) β) (s : σ) :
    run (throw e >>= f) s = (.error e, s) :=
  run_bind_of_error (run_throw e s)

@[simp]
theorem run_map (f : α → β) (x : ExceptT ε (StateM σ) α) (s : σ) :
    run (f <$> x) s =
      match run x s with
      | (.ok a, s') => (.ok (f a), s')
      | (.error e, s') => (.error e, s') := by
  simp only [run, ExceptT.run_map, StateT.run_map]
  rcases x.run.run s with ⟨_ | a, s'⟩ <;> rfl

/-- A successful sequence is made of successful parts. -/
theorem run_bind_ok {x : ExceptT ε (StateM σ) α} {f : α → ExceptT ε (StateM σ) β} {s s'' : σ}
    {b : β} (h : run (x >>= f) s = (.ok b, s'')) :
    ∃ a s', run x s = (.ok a, s') ∧ run (f a) s' = (.ok b, s'') := by
  rw [run_bind] at h
  rcases hx : run x s with ⟨_ | a, s'⟩
  · rw [hx] at h
    cases h
  · rw [hx] at h
    exact ⟨a, s', rfl, h⟩

theorem run_tryCatch (x : ExceptT ε (StateM σ) α) (h : ε → ExceptT ε (StateM σ) α) (s : σ) :
    run (tryCatch x h) s =
      match run x s with
      | (.ok a, s') => (.ok a, s')
      | (.error e, s') => run (h e) s' := by
  simp only [run, tryCatch, tryCatchThe, MonadExceptOf.tryCatch, ExceptT.tryCatch, ExceptT.run,
    ExceptT.mk, StateT.run, bind, StateT.bind, pure]
  rcases (x s) with ⟨_ | a, s'⟩ <;> rfl

/-! ## Relations every run keeps -/

section Rel

variable (R : σ → σ → Prop) [IsTrans σ R]

theorem rel_bind {x : ExceptT ε (StateM σ) α} {f : α → ExceptT ε (StateM σ) β} {s : σ}
    (hx : R s (run x s).2) (hf : ∀ a s', run x s = (.ok a, s') → R s' (run (f a) s').2) :
    R s (run (x >>= f) s).2 := by
  rw [run_bind]
  rcases hxs : run x s with ⟨_ | a, s'⟩
  · rw [hxs] at hx
    exact hx
  · rw [hxs] at hx
    exact IsTrans.trans _ _ _ hx (hf a s' hxs)

theorem rel_tryCatch {x : ExceptT ε (StateM σ) α} {h : ε → ExceptT ε (StateM σ) α} {s : σ}
    (hx : R s (run x s).2) (hh : ∀ e s', run x s = (.error e, s') → R s' (run (h e) s').2) :
    R s (run (tryCatch x h) s).2 := by
  rw [run_tryCatch]
  rcases hxs : run x s with ⟨e | a, s'⟩
  · rw [hxs] at hx
    exact IsTrans.trans _ _ _ hx (hh e s' hxs)
  · rw [hxs] at hx
    exact hx

/-- A loop over a list keeps a reflexive relation that each turn keeps. -/
theorem rel_forM [Std.Refl R] {γ : Type} (l : List γ) (f : γ → ExceptT ε (StateM σ) PUnit)
    (hf : ∀ c ∈ l, ∀ s, R s (run (f c) s).2) (s : σ) :
    R s (run (l.forM f) s).2 := by
  induction l generalizing s with
  | nil => exact Std.Refl.refl s
  | cons c rest ih =>
    show R s (run (f c >>= fun _ => rest.forM f) s).2
    refine rel_bind R (hf c (List.mem_cons_self ..) s) ?_
    intro _ s' _
    exact ih (fun c' hc' => hf c' (List.mem_cons_of_mem _ hc')) s'

end Rel

/-! ## Programs all of whose runs keep a relation -/

/-- Every run of `x`, from any state and with any outcome, keeps `R`. -/
def Keeps (R : σ → σ → Prop) (x : ExceptT ε (StateM σ) α) : Prop :=
  ∀ s, R s (run x s).2

section Keeps

variable {R : σ → σ → Prop}

/-- The relation holds between the start and the end of a given run. -/
theorem Keeps.of_run {x : ExceptT ε (StateM σ) α} (h : Keeps R x) {s s' : σ} {r : Except ε α}
    (hrun : run x s = (r, s')) : R s s' := by
  have hs := h s
  rwa [hrun] at hs

theorem Keeps.bind [IsTrans σ R] {x : ExceptT ε (StateM σ) α} {f : α → ExceptT ε (StateM σ) β}
    (hx : Keeps R x) (hf : ∀ a, Keeps R (f a)) : Keeps R (x >>= f) :=
  fun s => rel_bind R (hx s) fun a s' _ => hf a s'

/-- The continuation may use what the first part returned. -/
theorem Keeps.bind_ok [IsTrans σ R] {x : ExceptT ε (StateM σ) α}
    {f : α → ExceptT ε (StateM σ) β} (hx : Keeps R x)
    (hf : ∀ s a s', run x s = (.ok a, s') → R s' (run (f a) s').2) : Keeps R (x >>= f) :=
  fun s => rel_bind R (hx s) (hf s)

theorem Keeps.ite {c : Prop} [Decidable c] {x y : ExceptT ε (StateM σ) α} (hx : c → Keeps R x)
    (hy : ¬c → Keeps R y) : Keeps R (if c then x else y) := by
  split
  · exact hx ‹_›
  · exact hy ‹_›

/-- The shape `do` gives `if c then x` followed by more: the rest is a join
point `k`, run after `x` or alone. -/
theorem Keeps.ite_bind [IsTrans σ R] {c : Prop} [Decidable c] {x : ExceptT ε (StateM σ) PUnit}
    {k : PUnit → ExceptT ε (StateM σ) β} (hx : c → Keeps R x) (hk : ∀ u, Keeps R (k u)) :
    Keeps R (if c then x >>= k else k ⟨⟩) := by
  split
  · exact Keeps.bind (hx ‹_›) hk
  · exact hk ⟨⟩

theorem Keeps.tryCatch [IsTrans σ R] {x : ExceptT ε (StateM σ) α}
    {h : ε → ExceptT ε (StateM σ) α} (hx : Keeps R x) (hh : ∀ e, Keeps R (h e)) :
    Keeps R (tryCatch x h) :=
  fun s => rel_tryCatch R (hx s) fun e s' _ => hh e s'

theorem Keeps.pure_bind {a : α} {f : α → ExceptT ε (StateM σ) β} (h : Keeps R (f a)) :
    Keeps R (Pure.pure a >>= f) := by
  rw [LawfulMonad.pure_bind]
  exact h

theorem Keeps.mono {Q : σ → σ → Prop} (hRQ : ∀ s s', R s s' → Q s s')
    {x : ExceptT ε (StateM σ) α} (hx : Keeps R x) : Keeps Q x :=
  fun s => hRQ _ _ (hx s)

variable [Std.Refl R]

theorem Keeps.pure (a : α) : Keeps R (Pure.pure a : ExceptT ε (StateM σ) α) :=
  fun s => Std.Refl.refl s

theorem Keeps.throw (e : ε) : Keeps R (MonadExcept.throw e : ExceptT ε (StateM σ) α) :=
  fun s => Std.Refl.refl s

/-- A failure stops the run: what follows it never runs. -/
theorem Keeps.throw_bind (e : ε) (f : α → ExceptT ε (StateM σ) β) :
    Keeps R (MonadExcept.throw e >>= f) := fun s => by
  rw [run_bind_of_error (run_throw e s)]
  exact Std.Refl.refl s

theorem Keeps.get : Keeps R (MonadState.get : ExceptT ε (StateM σ) σ) :=
  fun s => Std.Refl.refl s

theorem Keeps.forM [IsTrans σ R] {γ : Type} {l : List γ} {f : γ → ExceptT ε (StateM σ) PUnit}
    (hf : ∀ c ∈ l, Keeps R (f c)) : Keeps R (l.forM f) :=
  rel_forM R l f hf

end Keeps

/-! ## Plain `Except` -/

@[simp]
theorem pure_eq_ok (a : α) : (Pure.pure a : Except ε α) = .ok a := rfl

@[simp]
theorem ok_bind (a : α) (f : α → Except ε β) : (Except.ok a >>= f) = f a := rfl

@[simp]
theorem error_bind (e : ε) (f : α → Except ε β) : (Except.error e >>= f) = .error e := rfl

@[simp]
theorem map_ok (f : α → β) (a : α) : (Except.ok a : Except ε α).map f = .ok (f a) := rfl

@[simp]
theorem map_error (f : α → β) (e : ε) : (Except.error e : Except ε α).map f = .error e := rfl

@[simp]
theorem isOk_ok (a : α) : (Except.ok a : Except ε α).isOk = true := rfl

@[simp]
theorem isOk_error (e : ε) : (Except.error e : Except ε α).isOk = false := rfl

/-- A plain `Except` sequence that succeeds ran its first part to a value. -/
theorem bind_eq_ok {x : Except ε α} {f : α → Except ε β} {b : β} (h : x >>= f = .ok b) :
    ∃ a, x = .ok a ∧ f a = .ok b := by
  cases x with
  | error e => cases h
  | ok a => exact ⟨a, rfl, h⟩

/-- A plain `Except` value mapped to a success was a success. -/
theorem map_eq_ok {x : Except ε α} {f : α → β} {b : β} (h : x.map f = .ok b) :
    ∃ a, x = .ok a ∧ f a = b := by
  cases x with
  | error e => cases h
  | ok a => exact ⟨a, rfl, Except.ok.inj h⟩

end ExceptState
