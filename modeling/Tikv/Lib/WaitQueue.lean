import Mathlib.Logic.Relation

/-!
# Wait queues with holes, and the waits-for relations they give

A queue whose entries each carry a key and an id, and where a removed entry
may stay behind as a hole (`none`). Seen from one key, the queue is the list
of the ids queued under that key, in order (`ids`): appending, prepending and
dropping holes act on that view as list operations and leave the views of
the other keys alone.

A waits-for relation in which every step either climbs a rank or reaches a
node that waits for nobody has no cycle: along a path the rank climbs at
every step but the last, and a cycle has no last node.

Results:
* `ids_append`, `ids_cons_some`, `ids_dropWhile_isNone`: the view of the
  queue operations.
* `not_transGen_self_of_rank`: a relation that climbs a rank has no cycle.
-/
namespace KeyedQueue

variable {κ ι : Type} [DecidableEq κ]

/-- The ids queued under `k`, in queue order, holes skipped. -/
def ids (k : κ) (q : List (Option (κ × ι))) : List ι :=
  q.filterMap fun e => e.bind fun p => if p.1 = k then some p.2 else none

@[simp] theorem ids_nil (k : κ) : ids k ([] : List (Option (κ × ι))) = [] := rfl

@[simp] theorem ids_cons_none (k : κ) (q : List (Option (κ × ι))) :
    ids k (none :: q) = ids k q := rfl

theorem ids_cons_some (k k' : κ) (c : ι) (q : List (Option (κ × ι))) :
    ids k (some (k', c) :: q) = if k' = k then c :: ids k q else ids k q := by
  by_cases h : k' = k <;> simp [ids, h]

@[simp] theorem ids_cons_some_self (k : κ) (c : ι) (q : List (Option (κ × ι))) :
    ids k (some (k, c) :: q) = c :: ids k q := by
  simp [ids_cons_some]

theorem ids_cons_some_of_ne {k k' : κ} (h : k' ≠ k) (c : ι) (q : List (Option (κ × ι))) :
    ids k (some (k', c) :: q) = ids k q := by
  simp [ids_cons_some, h]

@[simp] theorem ids_append (k : κ) (q q' : List (Option (κ × ι))) :
    ids k (q ++ q') = ids k q ++ ids k q' :=
  List.filterMap_append

@[simp] theorem ids_dropWhile_isNone (k : κ) (q : List (Option (κ × ι))) :
    ids k (q.dropWhile Option.isNone) = ids k q := by
  induction q with
  | nil => rfl
  | cons e q ih =>
    cases e with
    | none => simpa [List.dropWhile_cons] using ih
    | some p => simp

end KeyedQueue

/-! ## Waits-for relations -/

section Rank

variable {α : Type} {R : α → α → Prop}

/-- Along a path of a relation that climbs `μ` or stops, the rank has
climbed, or the path ends at a node with no step out. -/
theorem transGen_rank (μ : α → Nat) (hstep : ∀ a b, R a b → μ a < μ b ∨ ∀ c, ¬ R b c)
    {a b : α} (h : Relation.TransGen R a b) : μ a < μ b ∨ ∀ c, ¬ R b c := by
  induction h with
  | single hab => exact hstep _ _ hab
  | tail _ hxb ih =>
    rcases ih with hlt | hend
    · rcases hstep _ _ hxb with hlt' | hend'
      · exact .inl (Nat.lt_trans hlt hlt')
      · exact .inr hend'
    · exact absurd hxb (hend _)

/-- A relation each of whose steps climbs `μ` or reaches a node with no step
out has no cycle. -/
theorem not_transGen_self_of_rank (μ : α → Nat)
    (hstep : ∀ a b, R a b → μ a < μ b ∨ ∀ c, ¬ R b c) (a : α) : ¬ Relation.TransGen R a a := by
  intro h
  obtain ⟨c, hac, -⟩ := Relation.TransGen.head'_iff.mp h
  rcases transGen_rank μ hstep h with hlt | hend
  · exact Nat.lt_irrefl _ hlt
  · exact hend c hac

end Rank
