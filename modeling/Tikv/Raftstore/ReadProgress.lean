import Mathlib.Data.List.Basic

/-!
# Follower read progress (`RegionReadProgress`)

A replica serves a stale read at `read_ts` when `read_ts ≤ safe_ts`. The
leader publishes `(apply_index, safe_ts)` items, and a replica may take an
item's `safe_ts` once it has applied the item's index
(components/raftstore/src/store/util.rs:1353-1370).
`RegionReadProgressCore` keeps the item in force (`read_state`) and a sorted
queue of items that wait for their index (`pending_items`): `update_safe_ts`
takes an item at once when its index is applied, raises the last pending item
when that one needs a larger index, or queues it, halving a full queue first;
`update_applied` takes the newest applied item off the queue.
`RegionReadProgress` publishes the core's `safe_ts` through an atomic, which
`pause` clears and `discard` freezes.

The spec is the docstring's rule (`idealSafeTs`): the largest `safe_ts`
reported for an index the peer has applied. The core may drop items, so it
lags behind the spec, but it never runs ahead of it.

Results:
* `step_coreInv`, `run_coreInv`: the queue stays sorted in both fields and
  above the applied index, `read_state` needs an applied index, and every item
  held is dominated by a reported one, `read_state` being possibly still the
  initial `(0, 0)`.
* `run_isSome`: with a non-decreasing applied index no assertion fails.
* `run_readState_ts_le`: without merges `read_state.ts` never decreases.
* `readState_ts_le_idealSafeTs`: the core's `safe_ts` never exceeds the spec.
* `progressRun_safeTs_le`: the published `safe_ts` never exceeds the spec
  unless the progress was discarded (the source region of a merge).
-/
namespace Tikv.Raftstore

/-- mirrors components/raftstore/src/store/util.rs:1600-1605 (`ReadState`) -/
structure ReadState where
  idx : Nat
  ts : Nat
  deriving DecidableEq, Repr

/-- mirrors components/raftstore/src/store/util.rs:1570-1598
(`RegionReadProgressCore`), the fields the updates of `safe_ts` read and
write; `capacity` is `pending_items.capacity()`. -/
structure RegionReadProgressCore where
  appliedIndex : Nat
  readState : ReadState
  pendingItems : List ReadState
  capacity : Nat
  lastMergeIndex : Nat
  pause : Bool
  discard : Bool
  deriving DecidableEq, Repr

/-- The `retain` of `push_back` (util.rs:1769-1773): the closure flips `keep`
and keeps the item when it is set, so the items at even positions stay. -/
def retainAlternate {α : Type} : Bool → List α → List α
  | _, [] => []
  | keep, x :: xs =>
    if !keep then x :: retainAlternate (!keep) xs else retainAlternate (!keep) xs

/-- The capacity of a `VecDeque` after a `push_back` onto `len` items: it
grows only when full, by the standard library's amortized rule (twice the
capacity, at least one more than the length, at least 4 for a 16-byte item). -/
def capacityAfterPush (cap len : Nat) : Nat :=
  if len < cap then cap else max 4 (max (2 * cap) (len + 1))

namespace RegionReadProgressCore

/-- mirrors components/raftstore/src/store/util.rs:1651-1674 (`new`);
`isWitness` is whether the peer is a witness, which serves no stale read. -/
def new (appliedIndex cap : Nat) (isWitness : Bool) : RegionReadProgressCore where
  appliedIndex := appliedIndex
  readState := ⟨0, 0⟩
  pendingItems := []
  capacity := cap
  lastMergeIndex := 0
  pause := isWitness
  discard := isWitness

/-- The loop of `update_applied` (util.rs:1707-1715): pop the items whose
index is applied, keeping the one with the largest `safe_ts`, and push the
first one that is not back. -/
def consumeApplied (applied : Nat) (toUpdate : ReadState) :
    List ReadState → ReadState × List ReadState
  | [] => (toUpdate, [])
  | item :: rest =>
    if applied < item.idx then (toUpdate, item :: rest)
    else consumeApplied applied (if toUpdate.ts < item.ts then item else toUpdate) rest

/-- mirrors components/raftstore/src/store/util.rs:1700-1722
(`update_applied`): `none` is the panic of `assert!(applied >=
self.applied_index)`, and a result carries the `safe_ts` when it changed. -/
def updateApplied (c : RegionReadProgressCore) (applied : Nat) :
    Option (RegionReadProgressCore × Option Nat) :=
  if applied < c.appliedIndex then none
  else
    let consumed := consumeApplied applied c.readState c.pendingItems
    let c := { c with appliedIndex := applied, pendingItems := consumed.2 }
    if c.readState.ts < consumed.1.ts then some ({ c with readState := consumed.1 }, some consumed.1.ts)
    else some (c, none)

/-- mirrors components/raftstore/src/store/util.rs:1764-1776 (`push_back`) -/
def pushBack (c : RegionReadProgressCore) (item : ReadState) : RegionReadProgressCore :=
  let pendingItems :=
    if c.pendingItems.length ≥ c.capacity then retainAlternate false c.pendingItems
    else c.pendingItems
  { c with
    pendingItems := pendingItems ++ [item]
    capacity := capacityAfterPush c.capacity pendingItems.length }

/-- mirrors components/raftstore/src/store/util.rs:1725-1762
(`update_safe_ts`); the instant it records for diagnosis is left out. -/
def updateSafeTs (c : RegionReadProgressCore) (idx ts : Nat) :
    RegionReadProgressCore × Option Nat :=
  if idx < c.lastMergeIndex then (c, none)
  else if c.appliedIndex ≥ idx then
    if c.readState.ts < ts then ({ c with readState := ⟨idx, ts⟩ }, some ts) else (c, none)
  else
    match c.pendingItems.getLast? with
    | some prev =>
      if prev.ts ≥ ts then (c, none)
      -- the last item needs at least this index: it takes the larger `safe_ts`
      else if prev.idx ≥ idx then
        ({ c with pendingItems := c.pendingItems.dropLast ++ [{ prev with ts := ts }] }, none)
      else (c.pushBack ⟨idx, ts⟩, none)
    | none => (c.pushBack ⟨idx, ts⟩, none)

/-- mirrors components/raftstore/src/store/util.rs:1676-1697
(`merge_safe_ts`): the target of a merge takes the smaller `safe_ts`. The
`safe_ts` that `update_applied` returns is dropped. -/
def mergeSafeTs (c : RegionReadProgressCore) (sourceSafeTs mergeIndex : Nat) :
    Option (RegionReadProgressCore × Option Nat) :=
  match c.updateApplied mergeIndex with
  | none => none
  | some (c, _) =>
    let targetSafeTs := c.readState.ts
    let c := { c with
      lastMergeIndex := mergeIndex
      readState := { c.readState with ts := min sourceSafeTs targetSafeTs } }
    if c.readState.ts ≠ targetSafeTs then some (c, some c.readState.ts) else some (c, none)

/-- The calls a core receives. -/
inductive Call where
  | updateApplied (applied : Nat)
  | updateSafeTs (idx ts : Nat)
  | mergeSafeTs (sourceSafeTs mergeIndex : Nat)
  deriving DecidableEq, Repr

def Call.isMerge : Call → Bool
  | .mergeSafeTs .. => true
  | _ => false

/-- The item a call reports. -/
def Call.report : Call → List ReadState
  | .updateSafeTs idx ts => [⟨idx, ts⟩]
  | _ => []

def reportsOf (calls : List Call) : List ReadState :=
  calls.flatMap Call.report

def step (c : RegionReadProgressCore) : Call → Option (RegionReadProgressCore × Option Nat)
  | .updateApplied applied => c.updateApplied applied
  | .updateSafeTs idx ts => some (c.updateSafeTs idx ts)
  | .mergeSafeTs sourceSafeTs mergeIndex => c.mergeSafeTs sourceSafeTs mergeIndex

/-- The applied index after a call that succeeds, from `applied`. -/
def Call.appliedAfter : Call → Nat → Nat
  | .updateApplied a, _ => a
  | .updateSafeTs .., applied => applied
  | .mergeSafeTs _ m, _ => m

/-- A sequence of calls, stopped by a panic. -/
def run (c : RegionReadProgressCore) : List Call → Option RegionReadProgressCore
  | [] => some c
  | call :: calls =>
    match c.step call with
    | none => none
    | some (c', _) => run c' calls

/-- The applied indexes that `update_applied` and `merge_safe_ts` receive do
not decrease, from `applied` on. -/
def AppliedFrom : Nat → List Call → Prop
  | _, [] => True
  | applied, call :: calls =>
    applied ≤ call.appliedAfter applied ∧ AppliedFrom (call.appliedAfter applied) calls

/-! ## The invariant -/

/-- `a` may precede `b` in `pending_items`. -/
def Before (a b : ReadState) : Prop :=
  a.idx < b.idx ∧ a.ts < b.ts

theorem Before.trans {a b c : ReadState} (hab : Before a b) (hbc : Before b c) : Before a c :=
  ⟨Nat.lt_trans hab.1 hbc.1, Nat.lt_trans hab.2 hbc.2⟩

/-- Some reported item needs no larger index and has no smaller `safe_ts`. -/
def Dominated (reports : List ReadState) (item : ReadState) : Prop :=
  ∃ r ∈ reports, r.idx ≤ item.idx ∧ item.ts ≤ r.ts

instance (reports : List ReadState) (item : ReadState) : Decidable (Dominated reports item) :=
  inferInstanceAs (Decidable (∃ r ∈ reports, r.idx ≤ item.idx ∧ item.ts ≤ r.ts))

theorem Dominated.mono {reports reports' : List ReadState} {item : ReadState}
    (h : Dominated reports item) (hsub : ∀ r ∈ reports, r ∈ reports') : Dominated reports' item := by
  obtain ⟨r, hr, hidx, hts⟩ := h
  exact ⟨r, hsub r hr, hidx, hts⟩

theorem Dominated.append {reports : List ReadState} {item : ReadState}
    (h : Dominated reports item) (more : List ReadState) : Dominated (reports ++ more) item :=
  h.mono fun _ hr => List.mem_append_left more hr

/-- The core's state after any calls, with `reports` the items reported. -/
structure CoreInv (reports : List ReadState) (c : RegionReadProgressCore) : Prop where
  sorted : c.pendingItems.Pairwise Before
  pending_above : ∀ item ∈ c.pendingItems, c.appliedIndex < item.idx
  readState_applied : c.readState.idx ≤ c.appliedIndex
  pending_dominated : ∀ item ∈ c.pendingItems, Dominated reports item
  readState_dominated : c.readState = ⟨0, 0⟩ ∨ Dominated reports c.readState

theorem CoreInv.append {reports : List ReadState} {c : RegionReadProgressCore}
    (h : CoreInv reports c) (more : List ReadState) : CoreInv (reports ++ more) c where
  sorted := h.sorted
  pending_above := h.pending_above
  readState_applied := h.readState_applied
  pending_dominated item hi := (h.pending_dominated item hi).append more
  readState_dominated := h.readState_dominated.imp_right fun hd => hd.append more

/-- The invariant reads neither `pause` nor `discard`. -/
theorem CoreInv.flags {reports : List ReadState} {c : RegionReadProgressCore}
    (h : CoreInv reports c) (pause discard : Bool) :
    CoreInv reports { c with pause := pause, discard := discard } :=
  ⟨h.sorted, h.pending_above, h.readState_applied, h.pending_dominated, h.readState_dominated⟩

theorem coreInv_new (appliedIndex cap : Nat) (isWitness : Bool) :
    CoreInv [] (new appliedIndex cap isWitness) where
  sorted := List.Pairwise.nil
  pending_above _ h := absurd h List.not_mem_nil
  readState_applied := Nat.zero_le _
  pending_dominated _ h := absurd h List.not_mem_nil
  readState_dominated := .inl rfl

/-! ## Lists of items -/

theorem retainAlternate_sublist {α : Type} (keep : Bool) (l : List α) :
    List.Sublist (retainAlternate keep l) l := by
  induction l generalizing keep with
  | nil => exact List.Sublist.slnil
  | cons x xs ih =>
    unfold retainAlternate
    split
    · exact List.Sublist.cons_cons x (ih _)
    · exact List.Sublist.cons x (ih _)

/-- Everything before the last item of a sorted list precedes it. -/
theorem before_getLast {l : List ReadState} {p : ReadState} (hl : l.Pairwise Before)
    (hp : l.getLast? = some p) : ∀ x ∈ l.dropLast, Before x p := by
  rw [← List.dropLast_append_getLast? p hp, List.pairwise_append] at hl
  intro x hx
  exact hl.2.2 x hx p (List.mem_singleton_self p)

theorem mem_of_mem_dropLast {l : List ReadState} {x : ReadState} (hx : x ∈ l.dropLast) : x ∈ l :=
  (List.dropLast_sublist l).subset hx

/-- The queue left by the loop of `update_applied` is what follows the
popped items. -/
theorem consumeApplied_suffix (applied : Nat) (t : ReadState) (l : List ReadState) :
    List.IsSuffix (consumeApplied applied t l).2 l := by
  induction l generalizing t with
  | nil => exact List.suffix_refl []
  | cons item rest ih =>
    unfold consumeApplied
    split
    · exact List.suffix_refl _
    · exact (ih _).trans (List.suffix_cons item rest)

/-- Of a sorted queue, the loop leaves only items above the applied index. -/
theorem consumeApplied_above {applied : Nat} {t : ReadState} {l : List ReadState}
    (hl : l.Pairwise Before) : ∀ item ∈ (consumeApplied applied t l).2, applied < item.idx := by
  induction l generalizing t with
  | nil => intro _ h; exact absurd h List.not_mem_nil
  | cons head rest ih =>
    rw [List.pairwise_cons] at hl
    unfold consumeApplied
    split
    · rename_i hlt
      -- the first item left is above `applied`, and the others above it
      intro item hi
      rcases List.mem_cons.mp hi with rfl | hrest
      · exact hlt
      · exact Nat.lt_trans hlt (hl.1 item hrest).1
    · exact ih hl.2

/-- The loop keeps the item it started from or takes an applied item of the
queue. -/
theorem consumeApplied_fst (applied : Nat) (t : ReadState) (l : List ReadState) :
    (consumeApplied applied t l).1 = t ∨
      ((consumeApplied applied t l).1 ∈ l ∧ (consumeApplied applied t l).1.idx ≤ applied) := by
  induction l generalizing t with
  | nil => exact .inl rfl
  | cons item rest ih =>
    unfold consumeApplied
    split
    · exact .inl rfl
    · rename_i hge
      rcases ih (if t.ts < item.ts then item else t) with heq | ⟨hmem, hidx⟩
      · rw [heq]
        split
        · exact .inr ⟨List.mem_cons_self, by omega⟩
        · exact .inl rfl
      · exact .inr ⟨List.mem_cons_of_mem item hmem, hidx⟩

/-! ## What each call does -/

/-- `update_applied` either panics or moves the applied index up, leaves the
rest of the queue, and takes the popped item when its `safe_ts` is larger. -/
theorem updateApplied_eq {c c' : RegionReadProgressCore} {applied : Nat} {r : Option Nat}
    (h : c.updateApplied applied = some (c', r)) :
    c.appliedIndex ≤ applied ∧
      c' = { c with
        appliedIndex := applied
        pendingItems := (consumeApplied applied c.readState c.pendingItems).2
        readState :=
          if c.readState.ts < (consumeApplied applied c.readState c.pendingItems).1.ts then
            (consumeApplied applied c.readState c.pendingItems).1
          else c.readState } := by
  unfold updateApplied at h
  split at h
  · cases h
  · rename_i hle
    refine ⟨Nat.le_of_not_lt hle, ?_⟩
    dsimp only at h
    split at h <;> rename_i hts
    · cases h
      simp only [hts, if_true]
    · cases h
      simp only [hts, if_false]

/-- The queue after `push_back`: what is kept of it, then the item. -/
theorem pushBack_pendingItems (c : RegionReadProgressCore) (item : ReadState) :
    ∃ kept, List.Sublist kept c.pendingItems ∧ (c.pushBack item).pendingItems = kept ++ [item] := by
  unfold pushBack
  split
  · exact ⟨_, retainAlternate_sublist false c.pendingItems, rfl⟩
  · exact ⟨_, List.Sublist.refl _, rfl⟩

@[simp]
theorem pushBack_appliedIndex (c : RegionReadProgressCore) (item : ReadState) :
    (c.pushBack item).appliedIndex = c.appliedIndex := rfl

@[simp]
theorem pushBack_readState (c : RegionReadProgressCore) (item : ReadState) :
    (c.pushBack item).readState = c.readState := rfl

/-- The four outcomes of `update_safe_ts`: nothing, a new `read_state`, a
raised last item, or a new last item. -/
theorem updateSafeTs_cases (c : RegionReadProgressCore) (idx ts : Nat) :
    (c.updateSafeTs idx ts).1 = c ∨
    (idx ≤ c.appliedIndex ∧ (c.updateSafeTs idx ts).1 = { c with readState := ⟨idx, ts⟩ }) ∨
    (c.appliedIndex < idx ∧ ∃ prev, c.pendingItems.getLast? = some prev ∧ prev.ts < ts ∧
      idx ≤ prev.idx ∧ (c.updateSafeTs idx ts).1 =
        { c with pendingItems := c.pendingItems.dropLast ++ [{ prev with ts := ts }] }) ∨
    (c.appliedIndex < idx ∧ (∀ prev, c.pendingItems.getLast? = some prev → prev.idx < idx ∧ prev.ts < ts) ∧
      (c.updateSafeTs idx ts).1 = c.pushBack ⟨idx, ts⟩) := by
  unfold updateSafeTs
  split
  · exact .inl rfl
  split
  · rename_i happ
    split
    · exact .inr (.inl ⟨happ, rfl⟩)
    · exact .inl rfl
  rename_i happ
  split
  · rename_i prev hprev
    split
    · exact .inl rfl
    rename_i hts
    split
    · rename_i hidx
      exact .inr (.inr (.inl ⟨by omega, prev, hprev, by omega, hidx, rfl⟩))
    · rename_i hidx
      refine .inr (.inr (.inr ⟨by omega, fun p hp => ?_, rfl⟩))
      rw [hprev, Option.some_inj] at hp
      subst hp
      omega
  · rename_i hnone
    refine .inr (.inr (.inr ⟨by omega, fun p hp => ?_, rfl⟩))
    rw [hnone] at hp
    cases hp

/-! ## Each call keeps the invariant -/

section Step

variable {reports : List ReadState} {c : RegionReadProgressCore}

theorem updateApplied_coreInv (hinv : CoreInv reports c) {applied : Nat}
    {c' : RegionReadProgressCore} {r : Option Nat} (h : c.updateApplied applied = some (c', r)) :
    CoreInv reports c' := by
  obtain ⟨hle, rfl⟩ := updateApplied_eq h
  have hsuffix := consumeApplied_suffix applied c.readState c.pendingItems
  have hfst := consumeApplied_fst applied c.readState c.pendingItems
  constructor
  · exact hinv.sorted.sublist hsuffix.sublist
  · exact consumeApplied_above hinv.sorted
  · -- the new `read_state` is the old one or a popped item
    dsimp only
    split
    · rcases hfst with heq | ⟨-, hidx⟩
      · rw [heq]
        exact Nat.le_trans hinv.readState_applied hle
      · exact hidx
    · exact Nat.le_trans hinv.readState_applied hle
  · exact fun item hi => hinv.pending_dominated item (hsuffix.subset hi)
  · dsimp only
    split
    · rcases hfst with heq | ⟨hmem, -⟩
      · rw [heq]
        exact hinv.readState_dominated
      · exact .inr (hinv.pending_dominated _ hmem)
    · exact hinv.readState_dominated

theorem pushBack_coreInv (hinv : CoreInv reports c) {item : ReadState}
    (habove : c.appliedIndex < item.idx) (hdom : Dominated reports item)
    (hlast : ∀ prev, c.pendingItems.getLast? = some prev → Before prev item) :
    CoreInv reports (c.pushBack item) := by
  obtain ⟨kept, hkept, hpend⟩ := pushBack_pendingItems c item
  -- every item of the queue precedes its last one, which precedes `item`
  have hbefore : ∀ x ∈ c.pendingItems, Before x item := by
    intro x hx
    cases hl : c.pendingItems.getLast? with
    | none => rw [List.getLast?_eq_none_iff] at hl; rw [hl] at hx; exact absurd hx List.not_mem_nil
    | some p =>
      have hp := hlast p hl
      rw [← List.dropLast_append_getLast? p hl, List.mem_append, List.mem_singleton] at hx
      rcases hx with hx | rfl
      · exact (before_getLast hinv.sorted hl x hx).trans hp
      · exact hp
  constructor
  · rw [hpend, List.pairwise_append]
    exact ⟨hinv.sorted.sublist hkept, List.pairwise_singleton _ _,
      fun x hx y hy => (List.mem_singleton.mp hy) ▸ hbefore x (hkept.subset hx)⟩
  · rw [hpend, pushBack_appliedIndex]
    intro x hx
    rcases List.mem_append.mp hx with hx | hx
    · exact hinv.pending_above x (hkept.subset hx)
    · rw [List.mem_singleton.mp hx]
      exact habove
  · exact hinv.readState_applied
  · rw [hpend]
    intro x hx
    rcases List.mem_append.mp hx with hx | hx
    · exact hinv.pending_dominated x (hkept.subset hx)
    · rw [List.mem_singleton.mp hx]
      exact hdom
  · exact hinv.readState_dominated

/-- The last item raised to the reported `safe_ts` keeps its index. -/
theorem raiseLast_coreInv (hinv : CoreInv reports c) {prev : ReadState} {idx ts : Nat}
    (hprev : c.pendingItems.getLast? = some prev) (hts : prev.ts < ts) (hidx : idx ≤ prev.idx) :
    CoreInv (reports ++ [⟨idx, ts⟩])
      { c with pendingItems := c.pendingItems.dropLast ++ [{ prev with ts := ts }] } := by
  have hprevMem : prev ∈ c.pendingItems := List.mem_of_getLast? hprev
  have hdomNew : Dominated (reports ++ [⟨idx, ts⟩]) { prev with ts := ts } :=
    ⟨⟨idx, ts⟩, List.mem_append_right _ (List.mem_singleton_self _), hidx, Nat.le_refl ts⟩
  have hinv' := hinv.append [⟨idx, ts⟩]
  constructor
  · rw [List.pairwise_append]
    refine ⟨hinv.sorted.sublist (List.dropLast_sublist _), List.pairwise_singleton _ _, ?_⟩
    intro x hx y hy
    rw [List.mem_singleton.mp hy]
    have hxp := before_getLast hinv.sorted hprev x hx
    exact ⟨hxp.1, Nat.lt_trans hxp.2 hts⟩
  · intro x hx
    rcases List.mem_append.mp hx with hx | hx
    · exact hinv.pending_above x (mem_of_mem_dropLast hx)
    · rw [List.mem_singleton.mp hx]
      exact hinv.pending_above prev hprevMem
  · exact hinv.readState_applied
  · intro x hx
    rcases List.mem_append.mp hx with hx | hx
    · exact hinv'.pending_dominated x (mem_of_mem_dropLast hx)
    · rw [List.mem_singleton.mp hx]
      exact hdomNew
  · exact hinv'.readState_dominated

theorem updateSafeTs_coreInv (hinv : CoreInv reports c) (idx ts : Nat) :
    CoreInv (reports ++ [⟨idx, ts⟩]) (c.updateSafeTs idx ts).1 := by
  have hself : Dominated (reports ++ [⟨idx, ts⟩]) ⟨idx, ts⟩ :=
    ⟨⟨idx, ts⟩, List.mem_append_right _ (List.mem_singleton_self _), Nat.le_refl _, Nat.le_refl _⟩
  rcases updateSafeTs_cases c idx ts with h | ⟨happ, h⟩ | ⟨happ, prev, hprev, hts, hidx, h⟩ |
      ⟨happ, hlast, h⟩ <;> rw [h]
  · exact hinv.append _
  · -- the item is taken at once
    have hinv' := hinv.append [⟨idx, ts⟩]
    exact ⟨hinv'.sorted, hinv'.pending_above, happ, hinv'.pending_dominated, .inr hself⟩
  · exact raiseLast_coreInv hinv hprev hts hidx
  · exact pushBack_coreInv (hinv.append _) happ hself fun p hp => hlast p hp

theorem mergeSafeTs_coreInv (hinv : CoreInv reports c) {sourceSafeTs mergeIndex : Nat}
    {c' : RegionReadProgressCore} {r : Option Nat}
    (h : c.mergeSafeTs sourceSafeTs mergeIndex = some (c', r)) : CoreInv reports c' := by
  unfold mergeSafeTs at h
  split at h
  · cases h
  rename_i c₁ r₁ h₁
  have hinv₁ := updateApplied_coreInv hinv h₁
  -- the merge only lowers the `safe_ts` of `read_state`
  have hread : { c₁.readState with ts := min sourceSafeTs c₁.readState.ts } = ⟨0, 0⟩ ∨
      Dominated reports { c₁.readState with ts := min sourceSafeTs c₁.readState.ts } := by
    rcases hinv₁.readState_dominated with h0 | ⟨p, hp, hidx, hts⟩
    · rw [h0]
      exact .inl (by simp)
    · exact .inr ⟨p, hp, hidx, Nat.le_trans (Nat.min_le_right _ _) hts⟩
  dsimp only at h
  split at h <;> cases h <;>
    exact ⟨hinv₁.sorted, hinv₁.pending_above, hinv₁.readState_applied,
      hinv₁.pending_dominated, hread⟩

/-- One call keeps the invariant, with the item it reports. -/
theorem step_coreInv (hinv : CoreInv reports c) {call : Call} {c' : RegionReadProgressCore}
    {r : Option Nat} (h : c.step call = some (c', r)) : CoreInv (reports ++ call.report) c' := by
  cases call with
  | updateApplied applied =>
    show CoreInv (reports ++ []) c'
    rw [List.append_nil]
    exact updateApplied_coreInv hinv h
  | updateSafeTs idx ts =>
    have hc : c' = (c.updateSafeTs idx ts).1 := by
      simp only [step, Option.some.injEq] at h
      rw [h]
    rw [hc]
    exact updateSafeTs_coreInv hinv idx ts
  | mergeSafeTs sourceSafeTs mergeIndex =>
    show CoreInv (reports ++ []) c'
    rw [List.append_nil]
    exact mergeSafeTs_coreInv hinv h

theorem updateApplied_ts_le {applied : Nat} {c' : RegionReadProgressCore} {r : Option Nat}
    (h : c.updateApplied applied = some (c', r)) : c.readState.ts ≤ c'.readState.ts := by
  obtain ⟨-, rfl⟩ := updateApplied_eq h
  dsimp only
  split
  · omega
  · exact Nat.le_refl _

/-- Without a merge, `read_state.ts` never decreases. -/
theorem step_readState_ts_le {call : Call} (hcall : call.isMerge = false)
    {c' : RegionReadProgressCore} {r : Option Nat} (h : c.step call = some (c', r)) :
    c.readState.ts ≤ c'.readState.ts := by
  cases call with
  | updateApplied applied => exact updateApplied_ts_le h
  | updateSafeTs idx ts =>
    have hc : c' = (c.updateSafeTs idx ts).1 := by
      simp only [step, Option.some.injEq] at h
      rw [h]
    rw [hc]
    unfold updateSafeTs
    repeat' split
    all_goals first | exact Nat.le_refl _ | dsimp only; omega
  | mergeSafeTs => cases hcall

/-- A call that returns a `safe_ts` returns the one in force after it. -/
theorem step_published {call : Call} {c' : RegionReadProgressCore} {t : Nat}
    (h : c.step call = some (c', some t)) : t = c'.readState.ts := by
  cases call with
  | updateApplied applied =>
    change c.updateApplied applied = some (c', some t) at h
    unfold updateApplied at h
    split at h
    · cases h
    dsimp only at h
    split at h <;> cases h
    rfl
  | updateSafeTs idx ts =>
    simp only [step, Option.some.injEq] at h
    revert h
    unfold updateSafeTs
    repeat' split
    all_goals intro h; cases h
    rfl
  | mergeSafeTs sourceSafeTs mergeIndex =>
    change c.mergeSafeTs sourceSafeTs mergeIndex = some (c', some t) at h
    unfold mergeSafeTs at h
    split at h
    · cases h
    dsimp only at h
    split at h <;> cases h
    rfl

/-- A call that returns no `safe_ts`, a merge included, leaves it no lower. -/
theorem step_unpublished_ts_le {call : Call} {c' : RegionReadProgressCore}
    (h : c.step call = some (c', none)) : c.readState.ts ≤ c'.readState.ts := by
  cases call with
  | updateApplied applied => exact updateApplied_ts_le h
  | updateSafeTs idx ts => exact step_readState_ts_le rfl h
  | mergeSafeTs sourceSafeTs mergeIndex =>
    change c.mergeSafeTs sourceSafeTs mergeIndex = some (c', none) at h
    unfold mergeSafeTs at h
    split at h
    · cases h
    rename_i c₁ r₁ h₁
    have hle := updateApplied_ts_le h₁
    dsimp only at h
    -- no `safe_ts` returned: the smaller one was the target's own
    split at h
    · cases h
    · rename_i hsame
      cases h
      dsimp only at hsame ⊢
      omega

/-- No call of the core moves `pause` or `discard`. -/
theorem step_flags {call : Call} {c' : RegionReadProgressCore} {r : Option Nat}
    (h : c.step call = some (c', r)) : c'.pause = c.pause ∧ c'.discard = c.discard := by
  cases call with
  | updateApplied applied =>
    obtain ⟨-, rfl⟩ := updateApplied_eq h
    exact ⟨rfl, rfl⟩
  | updateSafeTs idx ts =>
    have hc : c' = (c.updateSafeTs idx ts).1 := by
      simp only [step, Option.some.injEq] at h
      rw [h]
    rw [hc]
    rcases updateSafeTs_cases c idx ts with h' | ⟨-, h'⟩ | ⟨-, _, -, -, -, h'⟩ | ⟨-, -, h'⟩ <;>
      rw [h'] <;> exact ⟨rfl, rfl⟩
  | mergeSafeTs sourceSafeTs mergeIndex =>
    change c.mergeSafeTs sourceSafeTs mergeIndex = some (c', r) at h
    unfold mergeSafeTs at h
    split at h
    · cases h
    rename_i c₁ r₁ h₁
    have hflags : c₁.pause = c.pause ∧ c₁.discard = c.discard := by
      rw [(updateApplied_eq h₁).2]
      exact ⟨rfl, rfl⟩
    dsimp only at h
    split at h <;> cases h <;> exact hflags

end Step

/-! ## Runs -/

theorem run_append (c : RegionReadProgressCore) (pre post : List Call) :
    run c (pre ++ post) = (run c pre).bind fun c₁ => run c₁ post := by
  induction pre generalizing c with
  | nil => rfl
  | cons call calls ih =>
    simp only [List.cons_append, run]
    split
    · rfl
    · exact ih _

theorem run_coreInv {reports : List ReadState} {c c' : RegionReadProgressCore} {calls : List Call}
    (hinv : CoreInv reports c) (h : run c calls = some c') :
    CoreInv (reports ++ reportsOf calls) c' := by
  induction calls generalizing reports c with
  | nil =>
    cases h
    simpa [reportsOf] using hinv
  | cons call calls ih =>
    unfold run at h
    split at h
    · cases h
    · rename_i c₁ r₁ h₁
      have hrest := ih (step_coreInv hinv h₁) h
      simpa [reportsOf, List.append_assoc] using hrest

theorem step_appliedIndex {c c' : RegionReadProgressCore} {call : Call} {r : Option Nat}
    (h : c.step call = some (c', r)) : c'.appliedIndex = call.appliedAfter c.appliedIndex := by
  cases call with
  | updateApplied a =>
    obtain ⟨-, rfl⟩ := updateApplied_eq h
    rfl
  | updateSafeTs idx ts =>
    have hc : c' = (c.updateSafeTs idx ts).1 := by
      simp only [step, Option.some.injEq] at h
      rw [h]
    rw [hc]
    rcases updateSafeTs_cases c idx ts with h' | ⟨-, h'⟩ | ⟨-, _, -, -, -, h'⟩ | ⟨-, -, h'⟩ <;>
      rw [h'] <;> rfl
  | mergeSafeTs s m =>
    change c.mergeSafeTs s m = some (c', r) at h
    unfold mergeSafeTs at h
    split at h
    · cases h
    rename_i c₁ r₁ h₁
    have happ := (updateApplied_eq h₁).2
    dsimp only at h
    split at h <;> cases h <;> rw [happ] <;> rfl

theorem updateApplied_isSome {c : RegionReadProgressCore} {applied : Nat}
    (h : c.appliedIndex ≤ applied) : ∃ c' r, c.updateApplied applied = some (c', r) := by
  unfold updateApplied
  rw [if_neg (Nat.not_lt.mpr h)]
  dsimp only
  split <;> exact ⟨_, _, rfl⟩

/-- A call panics only when it would move the applied index down. -/
theorem step_isSome {c : RegionReadProgressCore} {call : Call}
    (h : c.appliedIndex ≤ call.appliedAfter c.appliedIndex) :
    ∃ c' r, c.step call = some (c', r) := by
  cases call with
  | updateApplied a => exact updateApplied_isSome h
  | updateSafeTs idx ts => exact ⟨_, _, rfl⟩
  | mergeSafeTs s m =>
    obtain ⟨c₁, r₁, h₁⟩ := @updateApplied_isSome c m h
    change ∃ c' r, c.mergeSafeTs s m = some (c', r)
    unfold mergeSafeTs
    rw [h₁]
    dsimp only
    split <;> exact ⟨_, _, rfl⟩

/-- With a non-decreasing applied index, no call panics. -/
theorem run_isSome {c : RegionReadProgressCore} {calls : List Call}
    (h : AppliedFrom c.appliedIndex calls) : ∃ c', run c calls = some c' := by
  induction calls generalizing c with
  | nil => exact ⟨c, rfl⟩
  | cons call calls ih =>
    -- the first call succeeds and leaves the applied index the rest starts from
    obtain ⟨hfirst, hrest⟩ := h
    obtain ⟨c₁, r₁, h₁⟩ := step_isSome hfirst
    rw [← step_appliedIndex h₁] at hrest
    obtain ⟨c', hc'⟩ := ih hrest
    exact ⟨c', by simp only [run, h₁, hc']⟩

theorem run_readState_ts_le {c c' : RegionReadProgressCore} {calls : List Call}
    (hcalls : ∀ call ∈ calls, call.isMerge = false) (h : run c calls = some c') :
    c.readState.ts ≤ c'.readState.ts := by
  induction calls generalizing c with
  | nil =>
    cases h
    exact Nat.le_refl _
  | cons call calls ih =>
    unfold run at h
    split at h
    · cases h
    · rename_i c₁ r₁ h₁
      have hfirst := step_readState_ts_le (hcalls call List.mem_cons_self) h₁
      have hrest := ih (fun x hx => hcalls x (List.mem_cons_of_mem call hx)) h
      omega

/-! ## The spec -/

/-- The docstring's rule (util.rs:1359-1363): the largest `safe_ts` of a
reported item whose index is applied, zero if there is none. -/
def idealSafeTs (reports : List ReadState) (applied : Nat) : Nat :=
  reports.foldr (fun r m => if r.idx ≤ applied then max r.ts m else m) 0

theorem le_idealSafeTs {reports : List ReadState} {applied : Nat} {r : ReadState}
    (hr : r ∈ reports) (happ : r.idx ≤ applied) : r.ts ≤ idealSafeTs reports applied := by
  induction reports with
  | nil => exact absurd hr List.not_mem_nil
  | cons head rest ih =>
    simp only [idealSafeTs, List.foldr_cons] at ih ⊢
    rcases List.mem_cons.mp hr with rfl | hrest
    · rw [if_pos happ]
      exact Nat.le_max_left _ _
    · have := ih hrest
      split <;> omega

/-- The core never runs ahead of the spec. -/
theorem readState_ts_le_idealSafeTs {reports : List ReadState} {c : RegionReadProgressCore}
    (hinv : CoreInv reports c) : c.readState.ts ≤ idealSafeTs reports c.appliedIndex := by
  rcases hinv.readState_dominated with h0 | ⟨r, hr, hidx, hts⟩
  · rw [h0]
    exact Nat.zero_le _
  · exact Nat.le_trans hts (le_idealSafeTs hr (Nat.le_trans hidx hinv.readState_applied))

/-- Follower read progress without merges, at every point of any sequence of
calls with a non-decreasing applied index: no assertion fails, the queue is
sorted in both fields and above the applied index, `read_state` needs an
applied index, every item held is dominated by a reported one or is the
initial `read_state`, and `read_state.ts` does not go down afterwards. -/
theorem readProgressCore_run (appliedIndex cap : Nat) (isWitness : Bool) (calls : List Call)
    (hnomerge : ∀ call ∈ calls, call.isMerge = false) (happlied : AppliedFrom appliedIndex calls)
    (pre post : List Call) (hsplit : calls = pre ++ post) :
    ∃ c₁ c₂, run (new appliedIndex cap isWitness) pre = some c₁ ∧ run c₁ post = some c₂ ∧
      CoreInv (reportsOf pre) c₁ ∧ c₁.readState.ts ≤ idealSafeTs (reportsOf pre) c₁.appliedIndex ∧
      c₁.readState.ts ≤ c₂.readState.ts := by
  obtain ⟨c₂, hrun⟩ := run_isSome (c := new appliedIndex cap isWitness) happlied
  rw [hsplit, run_append] at hrun
  cases hpre : run (new appliedIndex cap isWitness) pre with
  | none => rw [hpre] at hrun; cases hrun
  | some c₁ =>
    rw [hpre, Option.bind_some] at hrun
    have hinv := run_coreInv (coreInv_new appliedIndex cap isWitness) hpre
    rw [List.nil_append] at hinv
    refine ⟨c₁, c₂, rfl, hrun, hinv, readState_ts_le_idealSafeTs hinv, run_readState_ts_le ?_ hrun⟩
    intro call hcall
    exact hnomerge call (hsplit ▸ List.mem_append_right pre hcall)

theorem readProgressCore_run_report_then_apply :
    ∃ c₁ c₂, run (new 0 2 false) [.updateSafeTs 5 7] = some c₁ ∧
      run c₁ [.updateApplied 6] = some c₂ ∧
      CoreInv (reportsOf [.updateSafeTs 5 7]) c₁ ∧
      c₁.readState.ts ≤ idealSafeTs (reportsOf [.updateSafeTs 5 7]) c₁.appliedIndex ∧
      c₁.readState.ts ≤ c₂.readState.ts :=
  readProgressCore_run 0 2 false [.updateSafeTs 5 7, .updateApplied 6] (by decide)
    ⟨Nat.le_refl 0, Nat.zero_le 6, trivial⟩ [.updateSafeTs 5 7] [.updateApplied 6] rfl

/-- The initial `read_state` `(0, 0)` stays in force while the reported
index is not applied, and no reported item dominates it. -/
theorem readState_initial_undominated :
    ∃ c, run (new 0 2 false) [.updateSafeTs 5 7] = some c ∧ c.readState = ⟨0, 0⟩ ∧
      ¬ Dominated (reportsOf [.updateSafeTs 5 7]) c.readState :=
  ⟨_, rfl, rfl, by decide⟩

end RegionReadProgressCore

/-! ## The published `safe_ts` -/

/-- mirrors components/raftstore/src/store/util.rs:1376-1383
(`RegionReadProgress`): the core and the atomic `safe_ts` that reads load. -/
structure RegionReadProgress where
  core : RegionReadProgressCore
  safeTs : Nat
  deriving DecidableEq, Repr

namespace RegionReadProgress

open RegionReadProgressCore

/-- The store after a call of the core: a `safe_ts` it returns is published
unless paused. -/
def publish (core : RegionReadProgressCore) (safeTs : Nat) : Option Nat → Nat
  | some ts => if !core.pause then ts else safeTs
  | none => safeTs

/-- mirrors components/raftstore/src/store/util.rs:1386-1402 (`new`) -/
def new (appliedIndex cap : Nat) (isWitness : Bool) : RegionReadProgress :=
  ⟨RegionReadProgressCore.new appliedIndex cap isWitness, 0⟩

/-- mirrors components/raftstore/src/store/util.rs:1415-1425
(`update_applied`); the coprocessor hook is left out. -/
def updateApplied (p : RegionReadProgress) (applied : Nat) : Option RegionReadProgress :=
  match p.core.updateApplied applied with
  | none => none
  | some (core, ts) => some ⟨core, publish core p.safeTs ts⟩

/-- mirrors components/raftstore/src/store/util.rs:1436-1449
(`update_safe_ts_with_time`) -/
def updateSafeTs (p : RegionReadProgress) (applyIndex ts : Nat) : RegionReadProgress :=
  if applyIndex = 0 ∨ ts = 0 then p
  else if p.core.discard then p
  else
    let updated := p.core.updateSafeTs applyIndex ts
    ⟨updated.1, publish updated.1 p.safeTs updated.2⟩

/-- mirrors components/raftstore/src/store/util.rs:1455-1471
(`merge_safe_ts`); the coprocessor hook is left out. -/
def mergeSafeTs (p : RegionReadProgress) (sourceSafeTs mergeIndex : Nat) :
    Option RegionReadProgress :=
  match p.core.mergeSafeTs sourceSafeTs mergeIndex with
  | none => none
  | some (core, ts) => some ⟨core, publish core p.safeTs ts⟩

/-- mirrors components/raftstore/src/store/util.rs:1532-1536 (`pause`) -/
def pause (p : RegionReadProgress) : RegionReadProgress :=
  ⟨{ p.core with pause := true }, 0⟩

/-- mirrors components/raftstore/src/store/util.rs:1539-1543 (`discard`) -/
def discard (p : RegionReadProgress) : RegionReadProgress :=
  ⟨{ p.core with pause := true, discard := true }, p.safeTs⟩

/-- mirrors components/raftstore/src/store/util.rs:1546-1551 (`resume`) -/
def resume (p : RegionReadProgress) : RegionReadProgress :=
  ⟨{ p.core with pause := false, discard := false }, p.core.readState.ts⟩

/-- The calls a progress receives; `core call` is the method of the same
name as the core's `call`. -/
inductive ProgressCall where
  | core (call : Call)
  | pause
  | discard
  | resume
  deriving DecidableEq, Repr

def ProgressCall.report : ProgressCall → List ReadState
  | .core call => call.report
  | _ => []

def step (p : RegionReadProgress) : ProgressCall → Option RegionReadProgress
  | .core (.updateApplied applied) => p.updateApplied applied
  | .core (.updateSafeTs applyIndex ts) => some (p.updateSafeTs applyIndex ts)
  | .core (.mergeSafeTs sourceSafeTs mergeIndex) => p.mergeSafeTs sourceSafeTs mergeIndex
  | .pause => some p.pause
  | .discard => some p.discard
  | .resume => some p.resume

def run (p : RegionReadProgress) : List ProgressCall → Option RegionReadProgress
  | [] => some p
  | call :: calls =>
    match p.step call with
    | none => none
    | some p' => run p' calls

/-- The core's invariant, and the atomic: at most the core's `safe_ts`
unless discarded, and zero while paused. -/
structure ProgressInv (reports : List ReadState) (p : RegionReadProgress) : Prop where
  core : CoreInv reports p.core
  published : p.core.discard = false → p.safeTs ≤ p.core.readState.ts
  paused : p.core.pause = true → p.core.discard = false → p.safeTs = 0

theorem progressInv_new (appliedIndex cap : Nat) (isWitness : Bool) :
    ProgressInv [] (new appliedIndex cap isWitness) where
  core := coreInv_new appliedIndex cap isWitness
  published _ := Nat.zero_le _
  paused _ _ := rfl

/-- What a call of the core leaves of the invariant, with the store of its
result. -/
theorem publish_progressInv {reports reports' : List ReadState} {p : RegionReadProgress}
    {c' : RegionReadProgressCore} {r : Option Nat} (hinv : ProgressInv reports p)
    (hcore : CoreInv reports' c') (hflags : c'.pause = p.core.pause ∧ c'.discard = p.core.discard)
    (hsome : ∀ t, r = some t → t = c'.readState.ts)
    (hnone : r = none → p.core.readState.ts ≤ c'.readState.ts) :
    ProgressInv reports' ⟨c', publish c' p.safeTs r⟩ := by
  obtain ⟨hpause, hdiscard⟩ := hflags
  refine ⟨hcore, fun hd => ?_, fun hp hd => ?_⟩
  · rw [hdiscard] at hd
    cases r with
    | none => exact Nat.le_trans (hinv.published hd) (hnone rfl)
    | some t =>
      dsimp only [publish]
      split
      · exact Nat.le_of_eq (hsome t rfl)
      · -- paused and not discarded: the atomic was cleared
        rename_i hnp
        rw [hinv.paused (by rw [← hpause]; simpa using hnp) hd]
        exact Nat.zero_le _
  · rw [hpause] at hp
    rw [hdiscard] at hd
    cases r with
    | none => exact hinv.paused hp hd
    | some t =>
      dsimp only [publish]
      rw [hpause, hp]
      exact hinv.paused hp hd

theorem coreStep_progressInv {reports : List ReadState} {p : RegionReadProgress} (call : Call)
    {c' : RegionReadProgressCore} {r : Option Nat} (hinv : ProgressInv reports p)
    (h : p.core.step call = some (c', r)) :
    ProgressInv (reports ++ call.report) ⟨c', publish c' p.safeTs r⟩ :=
  publish_progressInv hinv (step_coreInv hinv.core h) (step_flags h)
    (fun _ ht => step_published (ht ▸ h)) (fun hr => step_unpublished_ts_le (hr ▸ h))

theorem step_progressInv {reports : List ReadState} {p p' : RegionReadProgress}
    {call : ProgressCall} (hinv : ProgressInv reports p) (h : p.step call = some p') :
    ProgressInv (reports ++ call.report) p' := by
  cases call with
  | core call =>
    cases call with
    | updateApplied applied =>
      change p.updateApplied applied = some p' at h
      unfold updateApplied at h
      split at h
      · cases h
      · rename_i c' r h'
        cases h
        exact coreStep_progressInv (.updateApplied applied) hinv h'
    | updateSafeTs applyIndex ts =>
      change some (p.updateSafeTs applyIndex ts) = some p' at h
      cases h
      unfold updateSafeTs
      split
      · exact ⟨hinv.core.append _, hinv.published, hinv.paused⟩
      split
      · exact ⟨hinv.core.append _, hinv.published, hinv.paused⟩
      · exact coreStep_progressInv (.updateSafeTs applyIndex ts) hinv rfl
    | mergeSafeTs sourceSafeTs mergeIndex =>
      change p.mergeSafeTs sourceSafeTs mergeIndex = some p' at h
      unfold mergeSafeTs at h
      split at h
      · cases h
      · rename_i c' r h'
        cases h
        exact coreStep_progressInv (.mergeSafeTs sourceSafeTs mergeIndex) hinv h'
  | pause =>
    cases h
    exact ⟨(hinv.core.append []).flags true p.core.discard, fun _ => Nat.zero_le _, fun _ _ => rfl⟩
  | discard =>
    cases h
    exact ⟨(hinv.core.append []).flags true true, (fun hd => nomatch hd), fun _ hd => nomatch hd⟩
  | resume =>
    cases h
    exact ⟨(hinv.core.append []).flags false false, fun _ => Nat.le_refl _, (fun hp _ => nomatch hp)⟩

theorem run_progressInv {reports : List ReadState} {p p' : RegionReadProgress}
    {calls : List ProgressCall} (hinv : ProgressInv reports p) (h : run p calls = some p') :
    ProgressInv (reports ++ calls.flatMap ProgressCall.report) p' := by
  induction calls generalizing reports p with
  | nil =>
    cases h
    simpa using hinv
  | cons call calls ih =>
    unfold run at h
    split at h
    · cases h
    · rename_i p₁ h₁
      have hrest := ih (step_progressInv hinv h₁) h
      simpa [List.append_assoc] using hrest

/-- Whatever the calls, merges, pauses and discards included, the published
`safe_ts` never exceeds the largest `safe_ts` reported for an index the peer
has applied, unless the progress was discarded. -/
theorem progressRun_safeTs_le (appliedIndex cap : Nat) (isWitness : Bool)
    (calls : List ProgressCall) (p : RegionReadProgress)
    (h : run (new appliedIndex cap isWitness) calls = some p) (hdiscard : p.core.discard = false) :
    p.safeTs ≤ idealSafeTs (calls.flatMap ProgressCall.report) p.core.appliedIndex := by
  have hinv := run_progressInv (progressInv_new appliedIndex cap isWitness) h
  rw [List.nil_append] at hinv
  exact Nat.le_trans (hinv.published hdiscard) (readState_ts_le_idealSafeTs hinv.core)

end RegionReadProgress

end Tikv.Raftstore
