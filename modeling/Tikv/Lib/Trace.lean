import Mathlib.Data.List.Induction

/-!
# Runs of calls, and the calls since the last reset

A component driven by calls has a step function that takes a state and a call
to the next state or to a failure. `run` folds it over a list of calls, the
first failure ending the run. A property of the state and of the calls made
so far holds at the end of every successful run when it holds at the start
and every successful call keeps it (`run_induction`): the proof of a property
of whole runs is then one lemma per kind of call.

Properties of the history often speak of the calls since the last call of
some kind that resets the component (`sinceLast`).

Results:
* `run_cons`, `run_concat`: a run starts with its first call and ends with
  its last.
* `run_induction`: the induction rule for properties of runs and their calls.
* `Reaches.inv`: the same rule for the runs of a step relation.
* `sinceLast_concat`: a reset clears the calls since the last reset; any
  other call is appended to them.
* `concat_eq_append_cons`: where a call can sit in a history one call longer.
-/

namespace Trace

variable {σ γ ε : Type}

/-- The state the calls reach from `s`, the first failing call ending the run. -/
def run (step : σ → γ → Except ε σ) (s : σ) (calls : List γ) : Except ε σ :=
  calls.foldlM step s

variable {step : σ → γ → Except ε σ}

@[simp]
theorem run_nil (s : σ) : run step s [] = .ok s := rfl

theorem run_cons (s : σ) (c : γ) (calls : List γ) :
    run step s (c :: calls) = (step s c).bind (run step · calls) := rfl

theorem run_concat (s : σ) (calls : List γ) (c : γ) :
    run step s (calls ++ [c]) = (run step s calls).bind (step · c) := by
  simp only [run, List.foldlM_append, List.foldlM_cons, List.foldlM_nil]
  cases List.foldlM step s calls with
  | error e => rfl
  | ok t =>
    show (step t c >>= pure) = step t c
    exact bind_pure _

/-- A property of the state and of the calls so far, true at the start and
kept by every successful call, holds at the end of every successful run. -/
theorem run_induction {P : σ → List γ → Prop} {s : σ} (h₀ : P s [])
    (hstep : ∀ t calls c t', P t calls → step t c = .ok t' → P t' (calls ++ [c])) :
    ∀ {calls : List γ} {t : σ}, run step s calls = .ok t → P t calls := by
  intro calls
  induction calls using List.reverseRecOn with
  | nil =>
    intro t h
    cases h
    exact h₀
  | append_singleton calls c ih =>
    intro t h
    rw [run_concat] at h
    cases hrun : run step s calls with
    | error e => rw [hrun] at h; cases h
    | ok t₁ =>
      rw [hrun] at h
      exact hstep t₁ calls c t (ih hrun) h

/-- The runs of a step relation: from `s` the calls lead to `t`. A relation
can add a condition on each step to a step function, such as that the step
loses nothing. -/
inductive Reaches (R : σ → γ → σ → Prop) : σ → List γ → σ → Prop
  | nil (s : σ) : Reaches R s [] s
  | snoc {s t u : σ} {calls : List γ} {c : γ} :
    Reaches R s calls t → R t c u → Reaches R s (calls ++ [c]) u

theorem Reaches.append {R : σ → γ → σ → Prop} {s t u : σ} {l₁ l₂ : List γ}
    (h₁ : Reaches R s l₁ t) (h₂ : Reaches R t l₂ u) : Reaches R s (l₁ ++ l₂) u := by
  induction h₂ with
  | nil => simpa using h₁
  | snoc _ hstep ih =>
    rw [← List.append_assoc]
    exact .snoc ih hstep

/-- A property of the state that every step of a run keeps, by a call of the
run, holds at its end. -/
theorem Reaches.inv {R : σ → γ → σ → Prop} {P : σ → Prop} {s t : σ} {calls : List γ}
    (h : Reaches R s calls t) (h₀ : P s) (hstep : ∀ t c u, c ∈ calls → P t → R t c u → P u) :
    P t := by
  induction h with
  | nil => exact h₀
  | snoc _ hc ih =>
    exact hstep _ _ _ (by simp) (ih fun t c u hc' => hstep t c u (by simp [hc'])) hc

/-- The calls after the last one that `reset` picks out. -/
def sinceLast (reset : γ → Bool) (calls : List γ) : List γ :=
  calls.foldl (fun acc c => if reset c then [] else acc ++ [c]) []

@[simp]
theorem sinceLast_nil (reset : γ → Bool) : sinceLast reset [] = [] := rfl

@[simp]
theorem sinceLast_concat (reset : γ → Bool) (calls : List γ) (c : γ) :
    sinceLast reset (calls ++ [c]) = if reset c then [] else sinceLast reset calls ++ [c] := by
  simp [sinceLast, List.foldl_append]

/-- A list with a call appended, cut around one of its calls: the cut is at
the appended call, or before it. -/
theorem concat_eq_append_cons {l pre post : List γ} {x y : γ} (h : l ++ [x] = pre ++ y :: post) :
    (post = [] ∧ y = x ∧ pre = l) ∨ ∃ post', post = post' ++ [x] ∧ l = pre ++ y :: post' := by
  rcases List.eq_nil_or_concat post with rfl | ⟨post', z, rfl⟩
  · obtain ⟨hl, hx⟩ := List.append_inj' h rfl
    exact .inl ⟨rfl, (List.singleton_inj.mp hx).symm, hl.symm⟩
  · have h' : l ++ [x] = (pre ++ y :: post') ++ [z] := by simpa using h
    obtain ⟨hl, hx⟩ := List.append_inj' h' rfl
    rw [List.singleton_inj.mp hx]
    exact .inr ⟨post', List.concat_eq_append, hl⟩

end Trace
