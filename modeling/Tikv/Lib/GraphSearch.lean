import Mathlib.Logic.Relation
import Mathlib.Data.List.Sigma

/-!
# Worklist search with a predecessor map

A search from `start` for `goal` over a successor function `succ`, run as a
worklist loop: pop a vertex and scan its out-edges (`scan`); an edge to
`goal` ends the search, and an edge to a vertex not seen yet pushes that
vertex, with the scanned one as its predecessor. The seen vertices and their
predecessors are an association list, newest first; `start` has the
predecessor `zero`.

`SearchInv` is the invariant of the loop: every seen vertex is reachable
from `start`; a seen vertex that has left the stack has all its successors
seen, none of them `goal`; and the predecessor of a seen vertex is a seen
vertex that has left the stack, has an edge to it, and was seen before it
(`depth`). From it: a scan that meets `goal` has found a path
(`SearchInv.scan_found`), and an empty stack means `goal` is unreachable
(`SearchInv.unreachable`). Each round lowers the stack length plus the
number of unseen vertices of a universe (`scan_countP`), which bounds the
rounds.

A relation without cycles keeps none when an edge `x → y` is added, unless
`y` already reaches `x` (`acyclic_insert`).
-/
namespace GraphSearch

variable {α β : Type} [DecidableEq α]

/-- `u → v` is an edge of the successor function `succ`. -/
def Edge (succ : α → List (Σ _ : α, β)) (u v : α) : Prop :=
  v ∈ (succ u).keys

/-- The length of `pushed` from the entry of `v` on: how early `v` was seen. -/
def depth (pushed : List (α × α)) (v : α) : Nat :=
  (pushed.dropWhile fun e => e.1 ≠ v).length

/-- The scan of the out-edges of `curr`: it stops at an edge to `goal` with
that edge's label, or pushes every unseen target. -/
def scan (goal curr : α) :
    List (Σ _ : α, β) → List α → List (α × α) → (β × List (α × α)) ⊕ (List α × List (α × α))
  | [], stack, pushed => .inr (stack, pushed)
  | ⟨v, b⟩ :: rest, stack, pushed =>
    if v = goal then .inl (b, pushed)
    else if (pushed.lookup v).isSome then scan goal curr rest stack pushed
    else scan goal curr rest (v :: stack) ((v, curr) :: pushed)

/-! ## Pushing new vertices -/

theorem lookup_cons_eq_ite {γ : Type} {v w : α} {b : γ} {l : List (α × γ)} :
    ((w, b) :: l).lookup v = if v = w then some b else l.lookup v := by
  rw [List.lookup_cons]
  split <;> simp_all

section Push

variable {new : List α} {c v : α} {pushed : List (α × α)}

theorem lookup_push_of_not_mem (hv : v ∉ new) :
    (new.map (fun w => (w, c)) ++ pushed).lookup v = pushed.lookup v := by
  have hnone : (new.map fun w => (w, c)).lookup v = none := by
    rw [List.lookup_eq_none_iff]
    intro p hp
    obtain ⟨w, hw, rfl⟩ := List.mem_map.mp hp
    simpa using fun he : v = w => hv (he ▸ hw)
  rw [List.lookup_append, hnone, Option.none_or]

theorem lookup_push_of_mem (hv : v ∈ new) :
    (new.map (fun w => (w, c)) ++ pushed).lookup v = some c := by
  induction new with
  | nil => exact absurd hv List.not_mem_nil
  | cons w rest ih =>
    by_cases hvw : v = w
    · simp [hvw]
    · have hv' := (List.mem_cons.mp hv).resolve_left hvw
      simp [lookup_cons_eq_ite, hvw, ih hv']

theorem depth_push_of_not_mem (hv : v ∉ new) :
    depth (new.map (fun w => (w, c)) ++ pushed) v = depth pushed v := by
  unfold depth
  rw [List.dropWhile_append_of_pos]
  intro e he
  obtain ⟨w, hw, rfl⟩ := List.mem_map.mp he
  simpa using fun he : w = v => hv (he ▸ hw)

theorem depth_le (pushed : List (α × α)) (v : α) : depth pushed v ≤ pushed.length :=
  (List.dropWhile_sublist _).length_le

theorem length_lt_depth_push (hv : v ∈ new) :
    pushed.length < depth (new.map (fun w => (w, c)) ++ pushed) v := by
  induction new with
  | nil => exact absurd hv List.not_mem_nil
  | cons w rest ih =>
    by_cases hvw : w = v
    · subst hvw
      rw [List.map_cons, List.cons_append, depth, List.dropWhile_cons_of_neg (by simp)]
      simp only [List.length_cons, List.length_append, List.length_map]
      omega
    · have hv' := (List.mem_cons.mp hv).resolve_left (Ne.symm hvw)
      simpa [depth, hvw] using ih hv'

end Push

omit [DecidableEq α] in
/-- A stronger filter that drops a member of the list counts one less, at
least. -/
theorem countP_add_one_le {l : List α} {p q : α → Bool} {w : α} (h : ∀ x ∈ l, q x → p x)
    (hw : w ∈ l) (hp : p w = true) (hq : q w = false) : l.countP q + 1 ≤ l.countP p := by
  induction l with
  | nil => exact absurd hw List.not_mem_nil
  | cons x l ih =>
    have hmono : l.countP q ≤ l.countP p := List.countP_mono_left fun y hy => h y (.tail _ hy)
    rw [List.countP_cons, List.countP_cons]
    rcases List.mem_cons.mp hw with rfl | hw'
    · simp only [hp, hq, if_true, Bool.false_eq_true, if_false]
      omega
    · have := ih (fun y hy => h y (.tail _ hy)) hw'
      by_cases hqx : q x = true
      · simp only [hqx, h x (.head _) hqx, if_true]
        omega
      · rw [Bool.not_eq_true] at hqx
        simp only [hqx, Bool.false_eq_true, if_false]
        split <;> omega

/-- Pushing `new` removes each from the unseen vertices of a universe `U`,
once at least. -/
theorem countP_push {U new : List α} {c : α} {pushed : List (α × α)} (hnd : new.Nodup)
    (hfresh : ∀ w ∈ new, pushed.lookup w = none) (hU : ∀ w ∈ new, w ∈ U) :
    new.length + U.countP (fun v => ((new.map (fun w => (w, c)) ++ pushed).lookup v).isNone) ≤
      U.countP (fun v => (pushed.lookup v).isNone) := by
  induction new with
  | nil => simp
  | cons w rest ih =>
    obtain ⟨hw, hnd'⟩ := List.nodup_cons.mp hnd
    have ih' := ih hnd' (fun x hx => hfresh x (.tail _ hx)) (fun x hx => hU x (.tail _ hx))
    -- `w` was unseen after `rest` and is seen after it
    have hstep := countP_add_one_le (l := U) (w := w)
      (p := fun v => ((rest.map (fun w => (w, c)) ++ pushed).lookup v).isNone)
      (q := fun v => (((w :: rest).map (fun w => (w, c)) ++ pushed).lookup v).isNone)
      (fun x _ hx => by
        by_cases hxw : x = w
        · simp [hxw] at hx
        · simpa [lookup_cons_eq_ite, hxw] using hx)
      (hU w (.head _))
      (by simp [lookup_push_of_not_mem hw, hfresh w (.head _)])
      (by simp)
    simp only [List.length_cons]
    omega

/-! ## The scan -/

section Scan

variable {goal curr : α}

/-- A scan that runs to the end has pushed some unseen successors, not
`goal`, and left every successor seen and none of them `goal`. -/
theorem scan_inr {es : List (Σ _ : α, β)} {stack stack' : List α} {pushed pushed' : List (α × α)}
    (h : scan goal curr es stack pushed = .inr (stack', pushed')) :
    ∃ new : List α, new.Nodup ∧ (∀ w ∈ new, w ∈ es.keys ∧ w ≠ goal ∧ pushed.lookup w = none) ∧
      stack' = new ++ stack ∧ pushed' = new.map (fun w => (w, curr)) ++ pushed ∧
      ∀ w ∈ es.keys, w ≠ goal ∧ (pushed'.lookup w).isSome := by
  induction es generalizing stack pushed with
  | nil =>
    simp only [scan, Sum.inr.injEq, Prod.mk.injEq] at h
    obtain ⟨rfl, rfl⟩ := h
    exact ⟨[], List.nodup_nil, by simp, rfl, rfl, by simp⟩
  | cons e rest ih =>
    obtain ⟨v, b⟩ := e
    simp only [scan] at h
    split_ifs at h with hgoal hseen
    · obtain ⟨new, hnd, hnew, hst, hpu, hall⟩ := ih h
      refine ⟨new, hnd, fun w hw => ⟨.tail _ (hnew w hw).1, (hnew w hw).2⟩, hst, hpu, ?_⟩
      intro w hw
      rcases List.mem_cons.mp hw with rfl | hw
      · refine ⟨hgoal, ?_⟩
        have hnot : w ∉ new := fun hm => by simp [(hnew w hm).2.2] at hseen
        rw [hpu, lookup_push_of_not_mem hnot]
        exact hseen
      · exact hall w hw
    · obtain ⟨new, hnd, hnew, hst, hpu, hall⟩ := ih h
      have hvnew : v ∉ new := fun hm => by
        have hnone := (hnew v hm).2.2
        rw [lookup_cons_eq_ite, if_pos rfl] at hnone
        exact Option.some_ne_none _ hnone
      refine ⟨new ++ [v], ?_, fun w hw => ?_, by simp [hst], by simp [hpu], ?_⟩
      · exact List.nodup_append.mpr ⟨hnd, List.nodup_singleton v, fun a ha b hb he => by
          rw [List.mem_singleton.mp hb] at he
          exact hvnew (he ▸ ha)⟩
      · rcases List.mem_append.mp hw with hw | hw
        · obtain ⟨hk, hg, hl⟩ := hnew w hw
          have hwv : w ≠ v := fun he => hvnew (he ▸ hw)
          exact ⟨.tail _ hk, hg, by simpa [lookup_cons_eq_ite, hwv] using hl⟩
        · rw [List.mem_singleton.mp hw]
          exact ⟨.head _, hgoal, Option.not_isSome_iff_eq_none.mp hseen⟩
      · intro w hw
        rcases List.mem_cons.mp hw with rfl | hw
        · refine ⟨hgoal, ?_⟩
          rw [hpu, lookup_push_of_not_mem hvnew]
          simp
        · exact hall w hw

/-- A scan that stops has met an edge to `goal`, and only pushed unseen
vertices before it. -/
theorem scan_inl {es : List (Σ _ : α, β)} {stack : List α} {pushed pushed' : List (α × α)} {b : β}
    (h : scan goal curr es stack pushed = .inl (b, pushed')) :
    ⟨goal, b⟩ ∈ es ∧ ∃ new : List α, (∀ w ∈ new, pushed.lookup w = none) ∧
      pushed' = new.map (fun w => (w, curr)) ++ pushed := by
  induction es generalizing stack pushed with
  | nil => simp [scan] at h
  | cons e rest ih =>
    obtain ⟨v, b'⟩ := e
    simp only [scan] at h
    split_ifs at h with hgoal hseen
    · simp only [Sum.inl.injEq, Prod.mk.injEq] at h
      obtain ⟨rfl, rfl⟩ := h
      exact ⟨by rw [hgoal]; exact .head _, [], by simp, rfl⟩
    · obtain ⟨hmem, new, hnew, hpu⟩ := ih h
      exact ⟨.tail _ hmem, new, hnew, hpu⟩
    · obtain ⟨hmem, new, hnew, hpu⟩ := ih h
      refine ⟨.tail _ hmem, new ++ [v], fun w hw => ?_, by simp [hpu]⟩
      rcases List.mem_append.mp hw with hw | hw
      · have := hnew w hw
        by_cases hwv : w = v
        · simp [hwv] at this
        · simpa [lookup_cons_eq_ite, hwv] using this
      · rw [List.mem_singleton.mp hw]
        exact Option.not_isSome_iff_eq_none.mp hseen

/-- A round lowers the stack length plus the unseen vertices of a universe
that holds every successor. -/
theorem scan_countP {U : List α} {es : List (Σ _ : α, β)} (hU : ∀ w ∈ es.keys, w ∈ U)
    {stack stack' : List α} {pushed pushed' : List (α × α)}
    (h : scan goal curr es stack pushed = .inr (stack', pushed')) :
    stack'.length + U.countP (fun v => (pushed'.lookup v).isNone) ≤
      stack.length + U.countP (fun v => (pushed.lookup v).isNone) := by
  obtain ⟨new, hnd, hnew, rfl, rfl, -⟩ := scan_inr h
  have := countP_push (U := U) (c := curr) hnd (fun w hw => (hnew w hw).2.2)
    (fun w hw => hU w (hnew w hw).1)
  simp only [List.length_append]
  omega

end Scan

/-! ## The loop invariant -/

/-- The invariant of the loop of a search from `start` for `goal`: `pushed`
holds the seen vertices with their predecessors, `stack` the seen vertices
not yet scanned. -/
structure SearchInv (succ : α → List (Σ _ : α, β)) (goal start zero : α) (stack : List α)
    (pushed : List (α × α)) : Prop where
  start_pred : pushed.lookup start = some zero
  zero_unseen : pushed.lookup zero = none
  goal_unseen : pushed.lookup goal = none
  stack_seen : ∀ v ∈ stack, (pushed.lookup v).isSome
  stack_nodup : stack.Nodup
  reach : ∀ v, (pushed.lookup v).isSome → Relation.ReflTransGen (Edge succ) start v
  closed : ∀ v, (pushed.lookup v).isSome → v ∉ stack → ∀ w ∈ (succ v).keys,
    (pushed.lookup w).isSome ∧ w ≠ goal
  pred : ∀ v u, pushed.lookup v = some u → v ≠ start →
    (pushed.lookup u).isSome ∧ u ∉ stack ∧ Edge succ u v ∧ depth pushed u < depth pushed v

section Inv

variable {succ : α → List (Σ _ : α, β)} {goal start zero : α}

theorem SearchInv.init (hgoal : start ≠ goal) (hzero : start ≠ zero) :
    SearchInv succ goal start zero [start] [(start, zero)] where
  start_pred := by simp
  zero_unseen := by simp [lookup_cons_eq_ite, Ne.symm hzero]
  goal_unseen := by simp [lookup_cons_eq_ite, Ne.symm hgoal]
  stack_seen v hv := by simp [List.mem_singleton.mp hv]
  stack_nodup := List.nodup_singleton start
  reach v hv := by
    have hv' : v = start := by
      by_contra hne
      simp [lookup_cons_eq_ite, hne] at hv
    rw [hv']
  closed v hv hns := by
    have hv' : v = start := by
      by_contra hne
      simp [lookup_cons_eq_ite, hne] at hv
    exact absurd (hv' ▸ List.mem_singleton_self start) hns
  pred v u hv hne := by simp [lookup_cons_eq_ite, hne] at hv

/-- A round that scans all of `curr`'s successors keeps the invariant. -/
theorem SearchInv.scan_next (hzero : ∀ v, zero ∉ (succ v).keys) {curr : α} {stack stack' : List α}
    {pushed pushed' : List (α × α)} (hinv : SearchInv succ goal start zero (curr :: stack) pushed)
    (h : scan goal curr (succ curr) stack pushed = .inr (stack', pushed')) :
    SearchInv succ goal start zero stack' pushed' := by
  obtain ⟨new, hnd, hnew, rfl, rfl, hall⟩ := scan_inr h
  obtain ⟨hcs, hsnd⟩ := List.nodup_cons.mp hinv.stack_nodup
  have hcurr : (pushed.lookup curr).isSome := hinv.stack_seen curr (.head _)
  have hold : ∀ v, (pushed.lookup v).isSome → v ∉ new := fun v hv hm => by
    simp [(hnew v hm).2.2] at hv
  have hseen : ∀ v, ((new.map (fun w => (w, curr)) ++ pushed).lookup v).isSome →
      v ∈ new ∨ (pushed.lookup v).isSome := fun v hv => by
    by_cases hm : v ∈ new
    · exact .inl hm
    · rw [lookup_push_of_not_mem hm] at hv
      exact .inr hv
  refine ⟨?_, ?_, ?_, fun v hv => ?_, ?_, fun v hv => ?_, fun v hv hns w hw => ?_,
    fun v u hv hne => ?_⟩
  · rw [lookup_push_of_not_mem (hold start (by simp [hinv.start_pred])), hinv.start_pred]
  · rw [lookup_push_of_not_mem (fun hm => hzero curr (hnew zero hm).1), hinv.zero_unseen]
  · rw [lookup_push_of_not_mem (fun hm => (hnew goal hm).2.1 rfl), hinv.goal_unseen]
  · rcases List.mem_append.mp hv with hv | hv
    · simp [lookup_push_of_mem hv]
    · have hsv := hinv.stack_seen v (.tail _ hv)
      rw [lookup_push_of_not_mem (hold v hsv)]
      exact hsv
  · refine List.nodup_append.mpr ⟨hnd, hsnd, fun a ha b hb he => ?_⟩
    rw [he] at ha
    exact hold b (hinv.stack_seen b (.tail _ hb)) ha
  · rcases hseen v hv with hm | hv
    · exact .tail (hinv.reach curr hcurr) (hnew v hm).1
    · exact hinv.reach v hv
  · have hnsn : v ∉ new := fun hm => hns (List.mem_append_left _ hm)
    have hv' : (pushed.lookup v).isSome := by rwa [lookup_push_of_not_mem hnsn] at hv
    by_cases hvc : v = curr
    · subst hvc
      exact ⟨(hall w hw).2, (hall w hw).1⟩
    · have hnot : v ∉ curr :: stack := fun hm =>
        (List.mem_cons.mp hm).elim hvc fun hs => hns (List.mem_append_right _ hs)
      obtain ⟨hws, hwg⟩ := hinv.closed v hv' hnot w hw
      refine ⟨?_, hwg⟩
      by_cases hwn : w ∈ new
      · simp [lookup_push_of_mem hwn]
      · rwa [lookup_push_of_not_mem hwn]
  · by_cases hm : v ∈ new
    · -- a vertex pushed in this round has `curr` as its predecessor
      rw [lookup_push_of_mem hm, Option.some_inj] at hv
      subst hv
      have hcn := hold curr hcurr
      refine ⟨by rwa [lookup_push_of_not_mem hcn], fun hin => ?_, (hnew v hm).1, ?_⟩
      · rcases List.mem_append.mp hin with hin | hin
        · exact hcn hin
        · exact hcs hin
      · rw [depth_push_of_not_mem hcn]
        exact Nat.lt_of_le_of_lt (depth_le pushed curr) (length_lt_depth_push hm)
    · rw [lookup_push_of_not_mem hm] at hv
      obtain ⟨hu, hus, hedge, hdepth⟩ := hinv.pred v u hv hne
      have hun := hold u hu
      refine ⟨by rwa [lookup_push_of_not_mem hun], fun hin => ?_, hedge, ?_⟩
      · rcases List.mem_append.mp hin with hin | hin
        · exact hun hin
        · exact hus (.tail _ hin)
      · rw [depth_push_of_not_mem hun, depth_push_of_not_mem hm]
        exact hdepth

/-- A scan that meets `goal` has found a path to it, and keeps the
predecessors of the vertices seen before. -/
theorem SearchInv.scan_found {curr : α} {stack : List α} {pushed pushed' : List (α × α)} {b : β}
    (hinv : SearchInv succ goal start zero (curr :: stack) pushed)
    (h : scan goal curr (succ curr) stack pushed = .inl (b, pushed')) :
    ⟨goal, b⟩ ∈ succ curr ∧ Relation.TransGen (Edge succ) start goal ∧
      ∀ v, (pushed.lookup v).isSome → pushed'.lookup v = pushed.lookup v := by
  obtain ⟨hmem, new, hnew, rfl⟩ := scan_inl h
  have hedge : Edge succ curr goal := List.mem_keys_of_mem hmem
  refine ⟨hmem, .tail' (hinv.reach curr (hinv.stack_seen curr (.head _))) hedge, fun v hv => ?_⟩
  have hvn : v ∉ new := fun hm => by simp [hnew v hm] at hv
  exact lookup_push_of_not_mem hvn

/-- Once the stack is empty, every vertex reachable from `start` is seen. -/
theorem SearchInv.seen_of_reach {pushed : List (α × α)} (hinv : SearchInv succ goal start zero [] pushed)
    {v : α} (h : Relation.ReflTransGen (Edge succ) start v) : (pushed.lookup v).isSome := by
  induction h with
  | refl => simp [hinv.start_pred]
  | tail _ hedge ih => exact (hinv.closed _ ih List.not_mem_nil _ hedge).1

/-- Once the stack is empty, `goal` is unreachable. -/
theorem SearchInv.unreachable {pushed : List (α × α)} (hinv : SearchInv succ goal start zero [] pushed) :
    ¬ Relation.ReflTransGen (Edge succ) start goal := fun h => by
  have hseen := hinv.seen_of_reach h
  rw [hinv.goal_unseen] at hseen
  exact Bool.false_ne_true hseen

end Inv

/-! ## Adding an edge to a relation without cycles -/

section Insert

variable {R : α → α → Prop} {x y : α}

omit [DecidableEq α] in
theorem transGen_insert {a b : α} (h : Relation.TransGen (fun a b => R a b ∨ (a = x ∧ b = y)) a b) :
    Relation.TransGen R a b ∨ (Relation.ReflTransGen R a x ∧ Relation.ReflTransGen R y b) := by
  induction h with
  | single hab =>
    rcases hab with hab | ⟨rfl, rfl⟩
    · exact .inl (.single hab)
    · exact .inr ⟨.refl, .refl⟩
  | tail _ hcb ih =>
    rcases ih with hac | ⟨hax, hyc⟩
    · rcases hcb with hcb | ⟨rfl, rfl⟩
      · exact .inl (.tail hac hcb)
      · exact .inr ⟨hac.to_reflTransGen, .refl⟩
    · rcases hcb with hcb | ⟨rfl, rfl⟩
      · exact .inr ⟨hax, .tail hyc hcb⟩
      · exact .inr ⟨hax, .refl⟩

omit [DecidableEq α] in
/-- Adding `x → y` to a relation without cycles makes none, unless `y`
reaches `x`. -/
theorem acyclic_insert (hR : ∀ a, ¬ Relation.TransGen R a a) (hyx : ¬ Relation.ReflTransGen R y x)
    (a : α) : ¬ Relation.TransGen (fun a b => R a b ∨ (a = x ∧ b = y)) a a := fun h => by
  rcases transGen_insert h with haa | ⟨hax, hya⟩
  · exact hR a haa
  · exact hyx (hya.trans hax)

end Insert

end GraphSearch
