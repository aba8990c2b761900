import Tikv.LockManager.DetectTable

/-!
# The wait-for graph of the deadlock detector

The table holds the edges `txn_ts → lock_ts` (`Waits`); those not expired
at the table's clock are `LiveWaits`. `TableInv` is what every table that
the calls of the detector reach keeps: every waiter has an edge, every
`Locks` is stored under its own `ts` with distinct key hashes and at least
one key, no transaction waits for the timestamp `0`, and the graph has no
cycle.

`do_detect` is the worklist search of `GraphSearch` over the edges not
expired (`DetectTable.liveSucc`), run on a table from which the waiters it
has scanned have lost their expired edges (`LoopTable`). From the search
invariant: it finds `txn_ts` exactly when `lock_ts` reaches it by edges not
expired, and the chain it builds from the predecessors is such a path
(`doDetectLoop_spec`).

`do_detect` marks the start of the search with the predecessor `0`, so a
transaction with timestamp `0` on the path breaks the chain: `detect(2, 0)`
after `detect(0, 1)` and `detect(1, 2)` fails an assertion although `0`
reaches `2` (`detect_zero_ts_panics`).

Results:
* `detect_spec`: one `detect` from a table with `TableInv`, with nonzero
  timestamps: it succeeds, finds a deadlock exactly when `lock_ts` reaches
  `txn_ts` by edges not expired, returns such a path and adds no edge, or
  else leaves the edge `txn_ts → lock_ts` in the table.
* `Reachable.inv`, `detect_table_safe`: over every run of the detector.
-/
namespace Tikv.LockManager

open GraphSearch

/-- `a` waits for `b`: the table holds the edge `a → b`. -/
def Waits (table : DetectTable) (a b : Nat) : Prop :=
  ∃ waitFor, table.waitForMap.lookup a = some waitFor ∧ b ∈ waitFor

/-- The edge `a → b` is held and has not expired at the table's clock. -/
def LiveWaits (table : DetectTable) (a b : Nat) : Prop :=
  ∃ waitFor, table.waitForMap.lookup a = some waitFor ∧ b ∈ table.unexpired waitFor

/-- A path of `R` from `a` to `b`: each entry an edge whose `waitForTxn` is
the `txn` of the next. -/
def WaitChain (R : Nat → Nat → Prop) : Nat → Nat → List WaitForEntry → Prop
  | a, b, [] => a = b
  | a, b, e :: es => e.txn = a ∧ R e.txn e.waitForTxn ∧ WaitChain R e.waitForTxn b es

/-- A `Locks` stored under `b`. -/
structure Locks.WellFormed (b : Nat) (locks : Locks) : Prop where
  ts : locks.ts = b
  keys_ne_nil : locks.keys ≠ []
  hashes_nodup : (locks.keys.map (·.1)).Nodup

/-- What every table reached by the detector keeps. -/
structure TableInv (table : DetectTable) : Prop where
  nonempty : ∀ a waitFor, table.waitForMap.lookup a = some waitFor → waitFor.entries ≠ []
  locks : ∀ a waitFor b locks, table.waitForMap.lookup a = some waitFor →
    waitFor.lookup b = some locks → locks.WellFormed b
  nonzero : ∀ a waitFor, table.waitForMap.lookup a = some waitFor → 0 ∉ waitFor
  acyclic : ∀ a, ¬ Relation.TransGen (Waits table) a a

namespace DetectTable

/-- The edges out of each waiter that have not expired, as the search sees them. -/
def liveSucc (table : DetectTable) (a : Nat) : List (Σ _ : Nat, Locks) :=
  match table.waitForMap.lookup a with
  | none => []
  | some waitFor => (table.unexpired waitFor).entries

/-- A waiter's entry without its expired edges, gone if none is left. -/
def prune (table : DetectTable) (o : Option WaitFor) : Option WaitFor :=
  o.bind fun waitFor =>
    if (table.unexpired waitFor).entries.isEmpty then none else some (table.unexpired waitFor)

/-- One round of `do_detect` on the table: the expired edges of `a` dropped,
and its entry removed if none is left. -/
def dropExpired (table : DetectTable) (a : Nat) : DetectTable :=
  match table.waitForMap.lookup a with
  | none => table
  | some waitFor =>
    if (table.unexpired waitFor).entries.isEmpty then
      { table with waitForMap := table.waitForMap.erase a }
    else { table with waitForMap := table.waitForMap.insert a (table.unexpired waitFor) }

end DetectTable

/-- `table'` is `table` with the expired edges of some waiters dropped. -/
structure Pruned (table table' : DetectTable) : Prop where
  now : table'.now = table.now
  ttl : table'.ttl = table.ttl
  lookup : ∀ a, table'.waitForMap.lookup a = table.waitForMap.lookup a ∨
    table'.waitForMap.lookup a = table.prune (table.waitForMap.lookup a)

/-! ## Edges not expired -/

section Unexpired

variable {table : DetectTable} {waitFor : WaitFor} {b : Nat}

theorem lookup_unexpired (table : DetectTable) (waitFor : WaitFor) (b : Nat) :
    (table.unexpired waitFor).lookup b =
      (waitFor.lookup b).filter fun locks => !locks.isExpired table.now table.ttl :=
  AList.lookup_retain _ _ _

theorem mem_unexpired :
    b ∈ table.unexpired waitFor ↔
      ∃ locks, waitFor.lookup b = some locks ∧ locks.isExpired table.now table.ttl = false := by
  rw [← AList.lookup_isSome, lookup_unexpired, Option.isSome_iff_exists]
  simp [Option.filter_eq_some_iff]

theorem mem_of_mem_unexpired (h : b ∈ table.unexpired waitFor) : b ∈ waitFor := by
  obtain ⟨locks, hl, -⟩ := mem_unexpired.mp h
  exact AList.lookup_isSome.mp (by simp [hl])

/-- Dropping the expired edges twice drops nothing more. -/
@[simp] theorem unexpired_unexpired :
    table.unexpired (table.unexpired waitFor) = table.unexpired waitFor := by
  apply AList.ext
  simp [DetectTable.unexpired, AList.retain, List.filter_filter]

theorem edge_liveSucc_iff {a : Nat} : Edge table.liveSucc a b ↔ LiveWaits table a b := by
  unfold Edge DetectTable.liveSucc LiveWaits
  cases h : table.waitForMap.lookup a with
  | none => simp
  | some waitFor => simp [AList.mem_keys, AList.keys]

theorem liveWaits_waits {a : Nat} (h : LiveWaits table a b) : Waits table a b := by
  obtain ⟨waitFor, hw, hb⟩ := h
  exact ⟨waitFor, hw, mem_of_mem_unexpired hb⟩

end Unexpired

/-! ## Wait chains -/

section Chain

variable {R : Nat → Nat → Prop}

theorem WaitChain.append {a b c : Nat} {es fs : List WaitForEntry} (h₁ : WaitChain R a b es)
    (h₂ : WaitChain R b c fs) : WaitChain R a c (es ++ fs) := by
  induction es generalizing a with
  | nil =>
    have hab : a = b := h₁
    subst hab
    exact h₂
  | cons e es ih =>
    obtain ⟨he, hR, hrest⟩ := h₁
    exact ⟨he, hR, ih hrest⟩

theorem WaitChain.transGen {a b : Nat} {es : List WaitForEntry} (h : WaitChain R a b es)
    (hne : es ≠ []) : Relation.TransGen R a b := by
  induction es generalizing a with
  | nil => exact absurd rfl hne
  | cons e es ih =>
    obtain ⟨rfl, hR, hrest⟩ := h
    cases es with
    | nil =>
      have hend : e.waitForTxn = b := hrest
      exact .single (hend ▸ hR)
    | cons e' es' => exact .head hR (ih hrest (List.cons_ne_nil _ _))

theorem WaitChain.mono {S : Nat → Nat → Prop} (hRS : ∀ a b, R a b → S a b) {a b : Nat}
    {es : List WaitForEntry} (h : WaitChain R a b es) : WaitChain S a b es := by
  induction es generalizing a with
  | nil => exact h
  | cons e es ih =>
    obtain ⟨he, hR, hrest⟩ := h
    exact ⟨he, hRS _ _ hR, ih hrest⟩

end Chain

/-! ## Pruning -/

section Pruning

variable {table table' : DetectTable}

theorem prune_some {waitFor : WaitFor} {b : Nat} (hb : b ∈ table.unexpired waitFor) :
    table.prune (some waitFor) = some (table.unexpired waitFor) := by
  have hne : (table.unexpired waitFor).entries ≠ [] := fun he => by
    rw [AList.mem_keys, AList.keys, he] at hb
    exact List.not_mem_nil hb
  simp [DetectTable.prune, hne]

theorem mem_of_prune {o : Option WaitFor} {waitFor : WaitFor} (h : table.prune o = some waitFor) :
    ∃ w, o = some w ∧ waitFor = table.unexpired w ∧ waitFor.entries ≠ [] := by
  cases o with
  | none => simp [DetectTable.prune] at h
  | some w =>
    simp only [DetectTable.prune, Option.bind_some] at h
    split at h
    · cases h
    · rename_i hne
      refine ⟨w, rfl, (Option.some_inj.mp h).symm, ?_⟩
      rw [← Option.some_inj.mp h]
      simpa using hne

/-- A pruned entry is part of the original one. -/
theorem Pruned.lookup_sub (h : Pruned table table') {a : Nat} {waitFor' : WaitFor}
    (ha : table'.waitForMap.lookup a = some waitFor') :
    ∃ waitFor, table.waitForMap.lookup a = some waitFor ∧
      ∀ b locks, waitFor'.lookup b = some locks → waitFor.lookup b = some locks := by
  rcases h.lookup a with heq | heq <;> rw [heq] at ha
  · exact ⟨waitFor', ha, fun _ _ hl => hl⟩
  · obtain ⟨w, hw, rfl, -⟩ := mem_of_prune ha
    refine ⟨w, hw, fun b locks hl => ?_⟩
    rw [lookup_unexpired, Option.filter_eq_some_iff] at hl
    exact hl.1

theorem Pruned.waits (h : Pruned table table') {a b : Nat} (hab : Waits table' a b) :
    Waits table a b := by
  obtain ⟨waitFor', ha, hb⟩ := hab
  obtain ⟨waitFor, hw, hsub⟩ := h.lookup_sub ha
  obtain ⟨locks, hl⟩ := Option.isSome_iff_exists.mp (AList.lookup_isSome.mpr hb)
  exact ⟨waitFor, hw, AList.lookup_isSome.mp (by simp [hsub b locks hl])⟩

theorem Pruned.inv (h : Pruned table table') (hinv : TableInv table) : TableInv table' where
  nonempty a waitFor' ha := by
    rcases h.lookup a with heq | heq <;> rw [heq] at ha
    · exact hinv.nonempty a waitFor' ha
    · obtain ⟨-, -, -, hne⟩ := mem_of_prune ha
      exact hne
  locks a waitFor' b locks ha hl := by
    obtain ⟨waitFor, hw, hsub⟩ := h.lookup_sub ha
    exact hinv.locks a waitFor b locks hw (hsub b locks hl)
  nonzero a waitFor' ha h0 := by
    obtain ⟨waitFor, hw, hsub⟩ := h.lookup_sub ha
    obtain ⟨locks, hl⟩ := Option.isSome_iff_exists.mp (AList.lookup_isSome.mpr h0)
    exact hinv.nonzero a waitFor hw (AList.lookup_isSome.mp (by simp [hsub 0 locks hl]))
  acyclic a hcycle := hinv.acyclic a (Relation.TransGen.mono (fun _ _ hab => h.waits hab) _ _ hcycle)

theorem unexpired_congr (hnow : table'.now = table.now) (httl : table'.ttl = table.ttl)
    (waitFor : WaitFor) : table'.unexpired waitFor = table.unexpired waitFor := by
  simp [DetectTable.unexpired, hnow, httl]

theorem prune_congr (hnow : table'.now = table.now) (httl : table'.ttl = table.ttl)
    (o : Option WaitFor) : table'.prune o = table.prune o := by
  simp [DetectTable.prune, unexpired_congr hnow httl]

/-- Pruning keeps the edges not expired. -/
theorem Pruned.liveWaits_iff (h : Pruned table table') {a b : Nat} :
    LiveWaits table' a b ↔ LiveWaits table a b := by
  unfold LiveWaits
  simp only [unexpired_congr h.now h.ttl]
  rcases h.lookup a with heq | heq <;> rw [heq]
  constructor
  · rintro ⟨waitFor', ha, hb⟩
    obtain ⟨w, hw, rfl, -⟩ := mem_of_prune ha
    rw [unexpired_unexpired] at hb
    exact ⟨w, hw, hb⟩
  · rintro ⟨w, hw, hb⟩
    rw [hw, prune_some hb]
    exact ⟨_, rfl, by rw [unexpired_unexpired]; exact hb⟩

theorem Pruned.refl (table : DetectTable) : Pruned table table :=
  ⟨rfl, rfl, fun _ => .inl rfl⟩

theorem prune_prune (o : Option WaitFor) : table.prune (table.prune o) = table.prune o := by
  cases o with
  | none => rfl
  | some w =>
    simp only [DetectTable.prune, Option.bind_some]
    split
    · rfl
    · rename_i hne
      simpa using hne

theorem Pruned.trans {table'' : DetectTable} (h₁ : Pruned table table') (h₂ : Pruned table' table'') :
    Pruned table table'' := by
  refine ⟨h₂.now.trans h₁.now, h₂.ttl.trans h₁.ttl, fun a => ?_⟩
  rcases h₂.lookup a with h2 | h2 <;> rcases h₁.lookup a with h1 | h1
  · exact .inl (h2.trans h1)
  · exact .inr (h2.trans h1)
  · exact .inr (by rw [h2, h1, prune_congr h₁.now h₁.ttl])
  · exact .inr (by rw [h2, h1, prune_congr h₁.now h₁.ttl, prune_prune])

/-- `active_expire` only drops expired edges. -/
theorem activeExpire_pruned (table : DetectTable) : Pruned table table.activeExpire := by
  unfold DetectTable.activeExpire
  split
  · refine ⟨rfl, rfl, fun a => .inr ?_⟩
    rw [AList.lookup_retain, AList.lookup_mapVal]
    cases table.waitForMap.lookup a with
    | none => rfl
    | some w =>
      by_cases he : (table.unexpired w).entries = [] <;> simp [DetectTable.prune, Option.filter, he]
  · exact Pruned.refl table

end Pruning

/-! ## The loop of `do_detect` -/

section Loop

variable {table₀ table : DetectTable}

@[simp] theorem dropExpired_now (table : DetectTable) (a : Nat) :
    (table.dropExpired a).now = table.now := by
  unfold DetectTable.dropExpired
  split
  · rfl
  · split <;> rfl

@[simp] theorem dropExpired_ttl (table : DetectTable) (a : Nat) :
    (table.dropExpired a).ttl = table.ttl := by
  unfold DetectTable.dropExpired
  split
  · rfl
  · split <;> rfl

theorem lookup_dropExpired (table : DetectTable) (a k : Nat) :
    (table.dropExpired a).waitForMap.lookup k =
      if k = a then table.prune (table.waitForMap.lookup a) else table.waitForMap.lookup k := by
  unfold DetectTable.dropExpired
  cases h : table.waitForMap.lookup a with
  | none =>
    by_cases hk : k = a
    · subst hk
      simp [h, DetectTable.prune]
    · simp [hk]
  | some w =>
    by_cases hk : k = a
    · subst hk
      by_cases he : (table.unexpired w).entries = []
      · simp [he, DetectTable.prune, AList.lookup_erase]
      · simp [he, DetectTable.prune, AList.lookup_insert]
    · by_cases he : (table.unexpired w).entries = []
      · simp [hk, he, AList.lookup_erase_ne hk]
      · simp [hk, he, AList.lookup_insert_ne hk]

/-- One round of `do_detect`: the scan of the edges of `curr` not expired,
on the table with them dropped. -/
theorem doDetectLoop_cons (txnTs waitForTs fuel : Nat) (table : DetectTable) (curr : Nat)
    (stack : List Nat) (pushed : List (Nat × Nat)) :
    DetectTable.doDetectLoop txnTs waitForTs (fuel + 1) table (curr :: stack) pushed =
      match scan txnTs curr (table.liveSucc curr) stack pushed with
      | .inl (locks, pushed) => do
        let (hash, _) ← locks.firstKey
        let lastEntry ← locks.toWaitForEntry curr
        let waitChain ← (table.dropExpired curr).generateWaitChain waitForTs curr pushed
        pure (table.dropExpired curr, some (hash, waitChain ++ [lastEntry]))
      | .inr (stack, pushed) =>
        DetectTable.doDetectLoop txnTs waitForTs fuel (table.dropExpired curr) stack pushed := by
  rw [DetectTable.doDetectLoop]
  unfold DetectTable.liveSucc DetectTable.dropExpired
  cases table.waitForMap.lookup curr with
  | none => rfl
  | some w =>
    simp only
    split
    · rename_i he
      rw [List.isEmpty_iff.mp he]
      rfl
    · rfl

/-- The table in the loop of `do_detect` from `table₀`: a waiter seen and
scanned has lost its expired edges, the others are as in `table₀`. -/
structure LoopTable (table₀ table : DetectTable) (stack : List Nat) (pushed : List (Nat × Nat)) :
    Prop where
  now : table.now = table₀.now
  ttl : table.ttl = table₀.ttl
  lookup : ∀ a, table.waitForMap.lookup a =
    if (pushed.lookup a).isSome ∧ a ∉ stack then table₀.prune (table₀.waitForMap.lookup a)
    else table₀.waitForMap.lookup a

theorem LoopTable.init (table₀ : DetectTable) (start : Nat) :
    LoopTable table₀ table₀ [start] [(start, 0)] := by
  refine ⟨rfl, rfl, fun a => ?_⟩
  by_cases ha : a = start
  · simp [ha]
  · simp [lookup_cons_eq_ite, ha]

theorem LoopTable.pruned {stack : List Nat} {pushed : List (Nat × Nat)}
    (h : LoopTable table₀ table stack pushed) : Pruned table₀ table := by
  refine ⟨h.now, h.ttl, fun a => ?_⟩
  rw [h.lookup a]
  split
  · exact .inr rfl
  · exact .inl rfl

/-- A waiter on the stack has its edges as in `table₀`. -/
theorem LoopTable.liveSucc_eq {curr : Nat} {stack : List Nat} {pushed : List (Nat × Nat)}
    (h : LoopTable table₀ table stack pushed) (hcurr : curr ∈ stack) :
    table.liveSucc curr = table₀.liveSucc curr := by
  have hl : table.waitForMap.lookup curr = table₀.waitForMap.lookup curr := by
    rw [h.lookup curr, if_neg fun hc => hc.2 hcurr]
  simp only [DetectTable.liveSucc, hl, unexpired_congr h.now h.ttl]

/-- After a round, `curr` has been scanned and the new vertices are on the
stack. -/
theorem LoopTable.next {txnTs lockTs curr : Nat} {stack stack' : List Nat}
    {pushed pushed' : List (Nat × Nat)} (h : LoopTable table₀ table (curr :: stack) pushed)
    (hinv : SearchInv table₀.liveSucc txnTs lockTs 0 (curr :: stack) pushed)
    (hscan : scan txnTs curr (table₀.liveSucc curr) stack pushed = .inr (stack', pushed')) :
    LoopTable table₀ (table.dropExpired curr) stack' pushed' := by
  obtain ⟨new, -, hnew, rfl, rfl, -⟩ := scan_inr hscan
  obtain ⟨hcs, -⟩ := List.nodup_cons.mp hinv.stack_nodup
  have hcurr : (pushed.lookup curr).isSome := hinv.stack_seen curr (.head _)
  have hold : ∀ v, (pushed.lookup v).isSome → v ∉ new := fun v hv hm => by
    simp [(hnew v hm).2.2] at hv
  refine ⟨by simp [h.now], by simp [h.ttl], fun a => ?_⟩
  rw [lookup_dropExpired]
  by_cases hac : a = curr
  · subst hac
    have hnot : a ∉ new ++ stack := fun hm =>
      (List.mem_append.mp hm).elim (hold a hcurr) hcs
    rw [if_pos rfl, if_pos ⟨by rwa [lookup_push_of_not_mem (hold a hcurr)], hnot⟩, h.lookup a,
      if_neg fun hc => hc.2 (.head _), prune_congr h.now h.ttl]
  · rw [if_neg hac, h.lookup a]
    by_cases han : a ∈ new
    · -- a vertex pushed in this round was unseen, and is on the stack
      rw [if_neg fun hc => by simp [(hnew a han).2.2] at hc,
        if_neg fun hc => hc.2 (List.mem_append_left _ han)]
    · have hmem : a ∈ new ++ stack ↔ a ∈ curr :: stack := by
        simp [han, hac]
      simp only [lookup_push_of_not_mem han, hmem]

/-- A waiter scanned before the current round has lost its expired edges. -/
theorem LoopTable.lookup_scanned {curr u : Nat} {stack : List Nat} {pushed : List (Nat × Nat)}
    (h : LoopTable table₀ table (curr :: stack) pushed) (hu : (pushed.lookup u).isSome)
    (hus : u ∉ curr :: stack) :
    (table.dropExpired curr).waitForMap.lookup u = table₀.prune (table₀.waitForMap.lookup u) := by
  have huc : u ≠ curr := fun he => hus (he ▸ .head _)
  rw [lookup_dropExpired, if_neg huc, h.lookup u, if_pos ⟨hu, hus⟩]

/-- Once the stack is empty, the edges out of the seen waiters lead to seen
waiters, so `txnTs` is out of reach from `lockTs` in the table. -/
theorem LoopTable.not_reach {txnTs lockTs : Nat} {pushed : List (Nat × Nat)}
    (h : LoopTable table₀ table [] pushed) (hinv : SearchInv table₀.liveSucc txnTs lockTs 0 [] pushed) :
    ¬ Relation.ReflTransGen (Waits table) lockTs txnTs := by
  have hseen : ∀ v, Relation.ReflTransGen (Waits table) lockTs v → (pushed.lookup v).isSome := by
    intro v hv
    induction hv with
    | refl => simp [hinv.start_pred]
    | tail _ hab ih =>
      rename_i a b _
      obtain ⟨waitFor, ha, hb⟩ := hab
      rw [h.lookup a, if_pos ⟨ih, List.not_mem_nil⟩] at ha
      obtain ⟨w, hw, rfl, -⟩ := mem_of_prune ha
      exact (hinv.closed a ih List.not_mem_nil b (edge_liveSucc_iff.mpr ⟨w, hw, hb⟩)).1
  intro hreach
  have := hseen txnTs hreach
  rw [hinv.goal_unseen] at this
  exact Bool.false_ne_true this

variable (table) in
/-- The chain of `generate_wait_chain` from a seen waiter `v`: a path of
edges not expired from `lockTs` to `v`. -/
theorem generateWaitChainGo_spec (hinv₀ : TableInv table₀) {txnTs lockTs curr : Nat}
    {stack : List Nat} {pushed preds : List (Nat × Nat)}
    (hinv : SearchInv table₀.liveSucc txnTs lockTs 0 (curr :: stack) pushed)
    (hlook : ∀ u, (pushed.lookup u).isSome → u ∉ curr :: stack →
      table.waitForMap.lookup u = table₀.prune (table₀.waitForMap.lookup u))
    (hpreds : ∀ v, (pushed.lookup v).isSome → preds.lookup v = pushed.lookup v) :
    ∀ fuel v acc, (pushed.lookup v).isSome → depth pushed v < fuel →
      ∃ es, table.generateWaitChainGo lockTs preds fuel v acc = .ok (es ++ acc.reverse) ∧
        WaitChain (LiveWaits table₀) lockTs v es := by
  intro fuel
  induction fuel with
  | zero => intro v acc _ hdepth; exact absurd hdepth (Nat.not_lt_zero _)
  | succ n ih =>
    intro v acc hv hdepth
    obtain ⟨u, hu⟩ := Option.isSome_iff_exists.mp hv
    by_cases hvl : v = lockTs
    · -- the start of the search, marked by the predecessor `0`
      subst hvl
      rw [hinv.start_pred, Option.some_inj] at hu
      subst hu
      refine ⟨[], ?_, rfl⟩
      simp [DetectTable.generateWaitChainGo, hpreds v hv, hinv.start_pred]
    · obtain ⟨hus, husn, hedge, hlt⟩ := hinv.pred v u hu hvl
      have hu0 : u ≠ 0 := fun he => by
        rw [he, hinv.zero_unseen] at hus
        exact Bool.false_ne_true hus
      obtain ⟨w, hw, hvw⟩ := edge_liveSucc_iff.mp hedge
      obtain ⟨locks, hl, hlive⟩ := mem_unexpired.mp hvw
      have hwf := hinv₀.locks u w v locks hw hl
      obtain ⟨k, ks, hks⟩ := List.exists_cons_of_ne_nil hwf.keys_ne_nil
      have hfind : (table.waitForMap.lookup u).bind (·.lookup v) = some locks := by
        rw [hlook u hus husn, hw, prune_some hvw, Option.bind_some, lookup_unexpired, hl]
        simp [hlive]
      let e : WaitForEntry := ⟨u, v, k.1, k.2, locks.resourceGroupTag⟩
      have hentry : locks.toWaitForEntry u = .ok e := by
        simp [Locks.toWaitForEntry, Locks.firstKey, hks, hwf.ts, e, bind, Except.bind, pure,
          Except.pure]
      obtain ⟨es, hrun, hchain⟩ := ih u (acc ++ [e]) hus (by omega)
      refine ⟨es ++ [e], ?_, hchain.append ⟨rfl, ⟨w, hw, hvw⟩, rfl⟩⟩
      simp [DetectTable.generateWaitChainGo, hpreds v hv, hu, hu0, hfind, hentry, hrun, bind,
        Except.bind]

theorem LoopTable.pruned_dropExpired {curr : Nat} {stack : List Nat} {pushed : List (Nat × Nat)}
    (h : LoopTable table₀ table (curr :: stack) pushed) : Pruned table₀ (table.dropExpired curr) := by
  refine ⟨by simp [h.now], by simp [h.ttl], fun a => ?_⟩
  rw [lookup_dropExpired]
  split
  · rename_i hac
    subst hac
    rw [h.lookup a, if_neg fun hc => hc.2 (.head _), prune_congr h.now h.ttl]
    exact .inr rfl
  · exact h.pruned.lookup a

theorem mem_liveSucc {a b : Nat} {locks : Locks} :
    ⟨b, locks⟩ ∈ table.liveSucc a ↔
      ∃ waitFor, table.waitForMap.lookup a = some waitFor ∧
        (table.unexpired waitFor).lookup b = some locks := by
  unfold DetectTable.liveSucc
  cases table.waitForMap.lookup a with
  | none => simp
  | some waitFor => simp [← AList.mem_lookup_iff]

/-- Every edge leads to a stored `lock_ts`. -/
theorem mem_targets_of_liveSucc {a b : Nat} (hb : b ∈ (table.liveSucc a).keys) :
    b ∈ table.targets := by
  unfold DetectTable.liveSucc at hb
  split at hb
  · exact absurd hb List.not_mem_nil
  · rename_i waitFor hw
    have hmem : b ∈ waitFor := mem_of_mem_unexpired hb
    have hentry : (⟨a, waitFor⟩ : Σ _ : Nat, WaitFor) ∈ table.waitForMap.entries :=
      AList.mem_lookup_iff.mp hw
    exact List.mem_flatMap.mpr ⟨_, hentry, hmem⟩

theorem zero_not_mem_liveSucc (hinv : TableInv table) (a : Nat) : 0 ∉ (table.liveSucc a).keys := by
  unfold DetectTable.liveSucc
  split
  · exact List.not_mem_nil
  · rename_i waitFor hw
    exact fun h0 => hinv.nonzero a waitFor hw (mem_of_mem_unexpired h0)

/-- The loop of `do_detect` from a state of the search ends without error; a
chain it returns is a path of edges not expired from `lockTs` to `txnTs`;
and if it finds none, `txnTs` is out of reach from `lockTs`, by the edges
not expired of `table₀` and by every edge left in the table. -/
theorem doDetectLoop_spec (hinv₀ : TableInv table₀) {txnTs lockTs : Nat} :
    ∀ fuel table stack pushed, SearchInv table₀.liveSucc txnTs lockTs 0 stack pushed →
      LoopTable table₀ table stack pushed →
      stack.length + table₀.targets.countP (fun v => (pushed.lookup v).isNone) < fuel →
      ∃ table' r, DetectTable.doDetectLoop txnTs lockTs fuel table stack pushed = .ok (table', r) ∧
        Pruned table₀ table' ∧
        (r = none → ¬ Relation.TransGen (LiveWaits table₀) lockTs txnTs ∧
          ¬ Relation.ReflTransGen (Waits table') lockTs txnTs ∧
          table'.waitForMap.lookup txnTs = table₀.waitForMap.lookup txnTs) ∧
        ∀ hash chain, r = some (hash, chain) → WaitChain (LiveWaits table₀) lockTs txnTs chain := by
  intro fuel
  induction fuel with
  | zero => intro _ _ _ _ _ hfuel; exact absurd hfuel (Nat.not_lt_zero _)
  | succ n ih =>
    intro table stack pushed hinv hrel hfuel
    cases stack with
    | nil =>
      refine ⟨table, none, rfl, hrel.pruned, fun _ => ⟨fun hlive => ?_, hrel.not_reach hinv, ?_⟩,
        by simp⟩
      · have hedge := Relation.TransGen.mono (fun _ _ hab => edge_liveSucc_iff.mpr hab) _ _ hlive
        exact hinv.unreachable hedge.to_reflTransGen
      · rw [hrel.lookup, if_neg fun hc => by simp [hinv.goal_unseen] at hc]
    | cons curr stack =>
      rw [doDetectLoop_cons, hrel.liveSucc_eq (.head _)]
      cases hscan : scan txnTs curr (table₀.liveSucc curr) stack pushed with
      | inr p =>
        obtain ⟨stack', pushed'⟩ := p
        have hcount := scan_countP (U := table₀.targets)
          (fun w hw => mem_targets_of_liveSucc hw) hscan
        simp only [List.length_cons] at hfuel
        exact ih _ _ _ (hinv.scan_next (zero_not_mem_liveSucc hinv₀) hscan) (hrel.next hinv hscan)
          (by omega)
      | inl p =>
        -- an edge to `txnTs`: the chain of predecessors back to `lockTs`, then that edge
        obtain ⟨locks, pushed'⟩ := p
        obtain ⟨hmem, -, hpreds⟩ := hinv.scan_found hscan
        obtain ⟨w, hw, hlocks⟩ := mem_liveSucc.mp hmem
        rw [lookup_unexpired, Option.filter_eq_some_iff] at hlocks
        obtain ⟨hl, hlive⟩ := hlocks
        have hwf := hinv₀.locks curr w txnTs locks hw hl
        obtain ⟨k, ks, hks⟩ := List.exists_cons_of_ne_nil hwf.keys_ne_nil
        have hcurr : (pushed.lookup curr).isSome := hinv.stack_seen curr (.head _)
        obtain ⟨es, hrun, hchain⟩ := generateWaitChainGo_spec (table.dropExpired curr)
          hinv₀ hinv (fun u hu hus => hrel.lookup_scanned hu hus) hpreds (pushed'.length + 1)
          curr [] hcurr (by
            have := depth_le pushed curr
            have hsub := congrArg List.length (scan_inl hscan).2.choose_spec.2
            simp only [List.length_append, List.length_map] at hsub
            omega)
        let e : WaitForEntry := ⟨curr, txnTs, k.1, k.2, locks.resourceGroupTag⟩
        have hlast : WaitChain (LiveWaits table₀) curr txnTs [e] :=
          ⟨rfl, ⟨w, hw, mem_unexpired.mpr ⟨locks, hl, by simpa using hlive⟩⟩, rfl⟩
        refine ⟨table.dropExpired curr, some (k.1, es ++ [e]), ?_, hrel.pruned_dropExpired,
          by simp, fun hash chain hr => ?_⟩
        · simp [DetectTable.generateWaitChain, Locks.toWaitForEntry, Locks.firstKey, hks, hwf.ts,
            hrun, e, bind, Except.bind, pure, Except.pure]
        · rw [Option.some_inj, Prod.mk.injEq] at hr
          rw [← hr.2]
          exact hchain.append hlast

end Loop

/-! ## The calls on the table -/

theorem lookup_insert_eq_ite {γ : Type} (s : AList (fun _ : Nat => γ)) (k a : Nat) (v : γ) :
    (s.insert k v).lookup a = if a = k then some v else s.lookup a := by
  split
  · rename_i h
    subst h
    exact AList.lookup_insert s
  · rename_i h
    exact AList.lookup_insert_ne h

namespace Locks.WellFormed

variable {b : Nat} {locks : Locks}

theorem new (ts hash : Nat) (key resourceGroupTag : List UInt8) (now : Nat) :
    (Locks.new ts hash key resourceGroupTag now).WellFormed ts :=
  ⟨rfl, List.cons_ne_nil _ _, List.nodup_singleton hash⟩

theorem push (h : locks.WellFormed b) (lockHash : Nat) (key : List UInt8) (now : Nat)
    (resourceGroupTag : List UInt8) :
    { locks.push lockHash key now with resourceGroupTag := resourceGroupTag }.WellFormed b := by
  refine ⟨h.ts, ?_, ?_⟩ <;> simp only [Locks.push]
  · split
    · exact h.keys_ne_nil
    · simp
  · split
    · exact h.hashes_nodup
    · rename_i hany
      rw [List.map_append, List.nodup_append]
      refine ⟨h.hashes_nodup, List.nodup_singleton _, fun x hx y hy hxy => hany ?_⟩
      rw [List.mem_singleton.mp hy] at hxy
      obtain ⟨e, he, rfl⟩ := List.mem_map.mp hx
      exact List.any_eq_true.mpr ⟨e, he, by simpa using hxy⟩

theorem remove (h : locks.WellFormed b) {lockHash : Nat} (hne : (locks.remove lockHash).2 = false) :
    (locks.remove lockHash).1.WellFormed b := by
  have hsub : List.Sublist (locks.remove lockHash).1.keys locks.keys := by
    simp only [Locks.remove]
    split
    · exact List.eraseIdx_sublist _ _
    · exact List.Sublist.refl _
  refine ⟨h.ts, fun hnil => ?_, (hsub.map _).nodup h.hashes_nodup⟩
  simp only [Locks.remove] at hne hnil
  rw [hnil] at hne
  exact Bool.false_ne_true hne.symm

end Locks.WellFormed

section Calls

variable {table table' : DetectTable}

/-- A table whose waiters and `Locks` all come from a table that keeps the
invariant, each `Locks` staying well formed, keeps it too. -/
theorem TableInv.of_sub (hinv : TableInv table)
    (hne : ∀ a waitFor', table'.waitForMap.lookup a = some waitFor' → waitFor'.entries ≠ [])
    (hsub : ∀ a waitFor' b locks', table'.waitForMap.lookup a = some waitFor' →
      waitFor'.lookup b = some locks' → ∃ waitFor locks, table.waitForMap.lookup a = some waitFor ∧
        waitFor.lookup b = some locks ∧ (locks.WellFormed b → locks'.WellFormed b)) :
    TableInv table' := by
  have hwaits : ∀ a b, Waits table' a b → Waits table a b := fun a b ⟨w', ha, hb⟩ => by
    obtain ⟨l', hl'⟩ := Option.isSome_iff_exists.mp (AList.lookup_isSome.mpr hb)
    obtain ⟨w, l, hw, hl, -⟩ := hsub a w' b l' ha hl'
    exact ⟨w, hw, AList.lookup_isSome.mp (by simp [hl])⟩
  refine ⟨hne, fun a w' b l' ha hl' => ?_, fun a w' ha h0 => ?_, fun a h => ?_⟩
  · obtain ⟨w, l, hw, hl, hwf⟩ := hsub a w' b l' ha hl'
    exact hwf (hinv.locks a w b l hw hl)
  · obtain ⟨w, hw, h0'⟩ := hwaits a 0 ⟨w', ha, h0⟩
    exact hinv.nonzero a w hw h0'
  · exact hinv.acyclic a (Relation.TransGen.mono hwaits _ _ h)

theorem TableInv.cleanUp (hinv : TableInv table) (txnTs : Nat) : TableInv (table.cleanUp txnTs) := by
  have hlook : ∀ a w', (table.cleanUp txnTs).waitForMap.lookup a = some w' →
      table.waitForMap.lookup a = some w' := fun a w' ha => by
    by_cases hat : a = txnTs
    · subst hat
      simp [DetectTable.cleanUp, AList.lookup_erase] at ha
    · rwa [DetectTable.cleanUp, AList.lookup_erase_ne hat] at ha
  exact hinv.of_sub (fun a w' ha => hinv.nonempty a w' (hlook a w' ha))
    fun a w' b l' ha hl' => ⟨w', l', hlook a w' ha, hl', id⟩

theorem TableInv.clear (hinv : TableInv table) : TableInv table.clear :=
  hinv.of_sub (fun a w' ha => by simp [DetectTable.clear] at ha)
    fun a w' b l' ha => by simp [DetectTable.clear] at ha

theorem TableInv.cleanUpWaitFor (hinv : TableInv table) (txnTs : Nat) (lockDigest : LockDigest) :
    TableInv (table.cleanUpWaitFor txnTs lockDigest) := by
  unfold DetectTable.cleanUpWaitFor
  split
  · exact hinv
  · rename_i waitFor hw
    split
    · exact hinv
    · rename_i locks hl
      -- the waiter's entry is the only one that changes
      have hother : ∀ (t' : DetectTable), (∀ a, a ≠ txnTs →
          t'.waitForMap.lookup a = table.waitForMap.lookup a) →
          (∀ w', t'.waitForMap.lookup txnTs = some w' → w'.entries ≠ [] ∧ ∀ b l',
            w'.lookup b = some l' → ∃ l, waitFor.lookup b = some l ∧ (l.WellFormed b → l'.WellFormed b)) →
          TableInv t' := fun t' hsame htxn => by
        refine hinv.of_sub (fun a w' ha => ?_) (fun a w' b l' ha hl' => ?_)
        · by_cases hat : a = txnTs
          · subst hat
            exact (htxn w' ha).1
          · rw [hsame a hat] at ha
            exact hinv.nonempty a w' ha
        · by_cases hat : a = txnTs
          · subst hat
            obtain ⟨l, hl, hwf⟩ := (htxn w' ha).2 b l' hl'
            exact ⟨waitFor, l, hw, hl, hwf⟩
          · rw [hsame a hat] at ha
            exact ⟨w', l', ha, hl', id⟩
      rcases hr : locks.remove lockDigest.hash with ⟨locks', empty⟩
      dsimp only
      cases empty
      · -- some keys of the lock stay: the `Locks` is replaced
        simp only [Bool.false_eq_true, ↓reduceIte]
        refine hother _ (fun a hat => by simp [hat]) fun w' hw' => ?_
        rw [lookup_insert_eq_ite, if_pos rfl, Option.some_inj] at hw'
        subst hw'
        refine ⟨by simp [AList.insert], fun b l' hl' => ?_⟩
        rw [lookup_insert_eq_ite] at hl'
        split at hl'
        · rename_i hb
          subst hb
          rw [Option.some_inj] at hl'
          subst hl'
          refine ⟨locks, hl, fun hwf => ?_⟩
          have hrem := hwf.remove (show (locks.remove lockDigest.hash).2 = false by rw [hr])
          rwa [hr] at hrem
        · exact ⟨l', hl', id⟩
      · simp only [↓reduceIte]
        split
        · exact hother _ (fun a hat => AList.lookup_erase_ne hat)
            (fun w' hw' => by simp at hw')
        · rename_i hne
          refine hother _ (fun a hat => by simp [hat]) fun w' hw' => ?_
          rw [lookup_insert_eq_ite, if_pos rfl, Option.some_inj] at hw'
          subst hw'
          refine ⟨by simpa using hne, fun b l' hl' => ⟨l', ?_, id⟩⟩
          by_cases hb : b = lockDigest.ts
          · subst hb
            simp at hl'
          · rwa [AList.lookup_erase_ne hb] at hl'

theorem registerIfExisted_eq_none_iff {txnTs lockTs lockHash : Nat} {key tag : List UInt8} :
    table.registerIfExisted txnTs lockTs lockHash key tag = none ↔ ¬ Waits table txnTs lockTs := by
  unfold DetectTable.registerIfExisted Waits
  cases hw : table.waitForMap.lookup txnTs with
  | none => simp
  | some waitFor =>
    cases hl : waitFor.lookup lockTs with
    | none => simp [hl, ← AList.lookup_isSome]
    | some locks => simp [hl, ← AList.lookup_isSome]

/-- Refreshing an existing edge changes no edge and keeps the invariant. -/
theorem registerIfExisted_some (hinv : TableInv table) {txnTs lockTs lockHash : Nat}
    {key tag : List UInt8} (h : table.registerIfExisted txnTs lockTs lockHash key tag = some table') :
    Waits table txnTs lockTs ∧ Waits table' txnTs lockTs ∧ TableInv table' := by
  unfold DetectTable.registerIfExisted at h
  cases hw : table.waitForMap.lookup txnTs with
  | none => simp [hw] at h
  | some waitFor =>
    cases hl : waitFor.lookup lockTs with
    | none => simp [hw, hl] at h
    | some locks =>
      simp only [hw, hl, Option.bind_eq_bind, Option.bind_some, Option.pure_def,
        Option.some_inj] at h
      subst h
      have hmem : lockTs ∈ waitFor := AList.lookup_isSome.mp (by simp [hl])
      refine ⟨⟨waitFor, hw, hmem⟩, ⟨_, AList.lookup_insert _, by simp [AList.mem_insert]⟩,
        hinv.of_sub (fun a w' ha => ?_) (fun a w' b l' ha hl' => ?_)⟩
      · rw [lookup_insert_eq_ite] at ha
        split at ha
        · rw [Option.some_inj] at ha
          subst ha
          simp [AList.insert]
        · exact hinv.nonempty a w' ha
      · rw [lookup_insert_eq_ite] at ha
        split at ha
        · rename_i hat
          subst hat
          rw [Option.some_inj] at ha
          subst ha
          rw [lookup_insert_eq_ite] at hl'
          split at hl'
          · rename_i hb
            subst hb
            rw [Option.some_inj] at hl'
            subst hl'
            exact ⟨waitFor, locks, hw, hl, fun hwf => hwf.push _ _ _ _⟩
          · exact ⟨waitFor, l', hw, hl', id⟩
        · exact ⟨w', l', ha, hl', id⟩

/-- Registering a new edge `txnTs → lockTs` that closes no cycle keeps the
invariant. -/
theorem register_spec (hinv : TableInv table) {txnTs lockTs : Nat} (lockHash : Nat)
    (key tag : List UInt8) (hlock : lockTs ≠ 0) (hnot : ¬ Waits table txnTs lockTs)
    (hreach : ¬ Relation.ReflTransGen (Waits table) lockTs txnTs) :
    ∃ table', table.register txnTs lockTs lockHash key tag = .ok table' ∧
      Waits table' txnTs lockTs ∧ TableInv table' := by
  set waitFor := (table.waitForMap.lookup txnTs).getD ∅ with hwaitFor
  set locks := Locks.new lockTs lockHash key tag table.now
  have hmemW : ∀ b, b ∈ waitFor ↔ Waits table txnTs b := fun b => by
    cases hw : table.waitForMap.lookup txnTs with
    | none => simp [hwaitFor, hw, Waits, AList.notMem_empty]
    | some w => simp [hwaitFor, hw, Waits]
  have hlockW : lockTs ∉ waitFor := fun hm => hnot ((hmemW lockTs).mp hm)
  let table' : DetectTable :=
    { table with waitForMap := table.waitForMap.insert txnTs (waitFor.insert lockTs locks) }
  have hlook : ∀ a, table'.waitForMap.lookup a =
      if a = txnTs then some (waitFor.insert lockTs locks) else table.waitForMap.lookup a :=
    fun a => lookup_insert_eq_ite _ _ _ _
  have hwaits : ∀ a b, Waits table' a b ↔ Waits table a b ∨ (a = txnTs ∧ b = lockTs) := by
    intro a b
    by_cases hat : a = txnTs
    · subst hat
      rw [← hmemW b]
      simp only [Waits, hlook, if_pos, Option.some_inj, exists_eq_left', AList.mem_insert, true_and]
      exact or_comm
    · simp [Waits, hlook, hat]
  refine ⟨table', by unfold DetectTable.register; exact if_neg hlockW, (hwaits _ _).mpr (.inr ⟨rfl, rfl⟩),
    ⟨fun a w' ha => ?_, fun a w' b l' ha hl' => ?_, fun a w' ha h0 => ?_, fun a h => ?_⟩⟩
  · rw [hlook] at ha
    split at ha
    · rw [Option.some_inj] at ha
      subst ha
      simp [AList.insert]
    · exact hinv.nonempty a w' ha
  · rw [hlook] at ha
    split at ha
    · rename_i hat
      subst hat
      rw [Option.some_inj] at ha
      subst ha
      rw [lookup_insert_eq_ite] at hl'
      split at hl'
      · rename_i hb
        subst hb
        rw [Option.some_inj] at hl'
        subst hl'
        exact Locks.WellFormed.new _ _ _ _ _
      · cases hw : table.waitForMap.lookup a with
        | none => simp [hwaitFor, hw] at hl'
        | some w =>
          rw [hwaitFor, hw, Option.getD_some] at hl'
          exact hinv.locks a w b l' hw hl'
    · exact hinv.locks a w' b l' ha hl'
  · obtain h0 | ⟨-, h0⟩ := (hwaits a 0).mp ⟨w', ha, h0⟩
    · obtain ⟨w, hw, h0'⟩ := h0
      exact hinv.nonzero a w hw h0'
    · exact hlock h0.symm
  · have hrel : Waits table' = fun a b => Waits table a b ∨ (a = txnTs ∧ b = lockTs) := by
      funext a b
      exact propext (hwaits a b)
    rw [hrel] at h
    exact acyclic_insert hinv.acyclic hreach a h

end Calls

/-! ## `detect` -/

section Detect

variable {table : DetectTable}

theorem TableInv.withNow (hinv : TableInv table) (now : Nat) : TableInv { table with now := now } :=
  ⟨hinv.nonempty, hinv.locks, hinv.nonzero, hinv.acyclic⟩

/-- One `detect` call, for `txnTs ≠ lockTs` and `lockTs ≠ 0`, ends without
error and keeps the invariant; it reports a deadlock exactly when `lockTs`
reaches `txnTs` by the edges not expired at `now`, with such a path and no edge
added; and otherwise the edge `txnTs → lockTs` is in the table afterwards. -/
theorem detect_spec (hinv : TableInv table) (now txnTs lockTs lockHash : Nat)
    (key tag : List UInt8) (hne : txnTs ≠ lockTs) (hlock : lockTs ≠ 0) :
    ∃ table' r, table.detect now txnTs lockTs lockHash key tag = .ok (table', r) ∧
      TableInv table' ∧
      (r.isSome ↔ Relation.TransGen (LiveWaits { table with now := now }) lockTs txnTs) ∧
      (∀ hash chain, r = some (hash, chain) →
        WaitChain (LiveWaits { table with now := now }) lockTs txnTs chain ∧
          ∀ a b, Waits table' a b → Waits table a b) ∧
      (r = none → Waits table' txnTs lockTs) := by
  set table₁ := { table with now := now }.activeExpire with htable₁
  have hpr₁ : Pruned { table with now := now } table₁ := activeExpire_pruned _
  have hinv₁ : TableInv table₁ := hpr₁.inv (hinv.withNow now)
  have hlive : ∀ a b, LiveWaits table₁ a b ↔ LiveWaits { table with now := now } a b :=
    fun _ _ => hpr₁.liveWaits_iff
  unfold DetectTable.detect
  dsimp only
  rw [← htable₁]
  cases hreg : table₁.registerIfExisted txnTs lockTs lockHash key tag with
  | some table' =>
    -- a refreshed edge: acyclicity of the table rules out a path back
    obtain ⟨hwaits, hwaits', hinv'⟩ := registerIfExisted_some hinv₁ hreg
    refine ⟨table', none, rfl, hinv', ⟨fun h => absurd h (by simp), fun hpath => ?_⟩,
      fun _ _ h => absurd h (by simp), fun _ => hwaits'⟩
    have hpath₁ := Relation.TransGen.mono (fun a b hab => liveWaits_waits ((hlive a b).mpr hab)) _ _
      hpath
    exact absurd (Relation.TransGen.head hwaits hpath₁) (hinv₁.acyclic txnTs)
  | none =>
    have hnot := registerIfExisted_eq_none_iff.mp hreg
    have hfuel : [lockTs].length + table₁.targets.countP
        (fun v => ([(lockTs, 0)].lookup v).isNone) < table₁.targets.length + 2 := by
      have := List.countP_le_length (l := table₁.targets) (p := fun v => ([(lockTs, 0)].lookup v).isNone)
      simp only [List.length_singleton]
      omega
    obtain ⟨table', r, hrun, hpr', hnone, hsome⟩ := doDetectLoop_spec hinv₁ _ table₁ [lockTs]
      [(lockTs, 0)] (SearchInv.init (Ne.symm hne) hlock) (LoopTable.init table₁ lockTs) hfuel
    have hinv' : TableInv table' := hpr'.inv hinv₁
    cases r with
    | some r =>
      obtain ⟨hash, chain⟩ := r
      have hchain := hsome hash chain rfl
      have hchain' := hchain.mono fun a b => (hlive a b).mp
      have hnil : chain ≠ [] := by
        rintro rfl
        exact hne (hchain : lockTs = txnTs).symm
      refine ⟨table', some (hash, chain), ?_, hinv', ⟨fun _ => hchain'.transGen hnil, fun _ => rfl⟩,
        fun hash' chain' hr => ?_, fun h => absurd h (by simp)⟩
      · simp [DetectTable.doDetect, hrun, bind, Except.bind, pure, Except.pure]
      · rw [Option.some_inj, Prod.mk.injEq] at hr
        rw [← hr.2]
        exact ⟨hchain', fun a b hab => (hpr₁.trans hpr').waits hab⟩
    | none =>
      -- no deadlock: the new edge closes no cycle, so `register` succeeds
      obtain ⟨hlive', hreach, hlook⟩ := hnone rfl
      have hnot' : ¬ Waits table' txnTs lockTs := fun ⟨w, hw, hb⟩ => hnot ⟨w, hlook ▸ hw, hb⟩
      obtain ⟨table'', hreg', hwaits'', hinv''⟩ := register_spec hinv' lockHash key tag hlock hnot' hreach
      refine ⟨table'', none, ?_, hinv'', ⟨fun h => absurd h (by simp), fun hpath => ?_⟩,
        fun _ _ h => absurd h (by simp), fun _ => hwaits''⟩
      · simp [DetectTable.doDetect, hrun, hreg', bind, Except.bind, pure, Except.pure]
      · exact (hlive' (Relation.TransGen.mono (fun a b => (hlive a b).mpr) _ _ hpath)).elim

end Detect

/-! ## Runs of the detector -/

/-- The calls the detector's users make: `detect` is only asked about a
transaction waiting for another, whose start timestamp is not zero. -/
def Call.Valid : Call → Prop
  | .detect _ txnTs lockTs _ _ _ => txnTs ≠ lockTs ∧ lockTs ≠ 0
  | _ => True

/-- The tables reached by valid calls from a new table. -/
inductive Reachable (ttl now : Nat) : DetectTable → Prop
  | init : Reachable ttl now (DetectTable.new ttl now)
  | step {table table' : DetectTable} {call : Call} {r : Option (Nat × List WaitForEntry)} :
      Reachable ttl now table → call.Valid → table.step call = .ok (table', r) →
      Reachable ttl now table'

theorem TableInv.new (ttl now : Nat) : TableInv (DetectTable.new ttl now) where
  nonempty a w h := by simp [DetectTable.new] at h
  locks a w b l h := by simp [DetectTable.new] at h
  nonzero a w h := by simp [DetectTable.new] at h
  acyclic a h := by
    obtain ⟨c, ⟨w, hw, -⟩, -⟩ := Relation.TransGen.head'_iff.mp h
    simp [DetectTable.new] at hw

theorem TableInv.step {table table' : DetectTable} (hinv : TableInv table) {call : Call}
    (hvalid : call.Valid) {r : Option (Nat × List WaitForEntry)}
    (hstep : table.step call = .ok (table', r)) : TableInv table' := by
  cases call with
  | detect now txnTs lockTs lockHash key tag =>
    obtain ⟨table'', r', hrun, hinv', -⟩ :=
      detect_spec hinv now txnTs lockTs lockHash key tag hvalid.1 hvalid.2
    rw [DetectTable.step, hrun, Except.ok.injEq, Prod.mk.injEq] at hstep
    exact hstep.1 ▸ hinv'
  | cleanUpWaitFor txnTs lockDigest =>
    cases hstep
    exact hinv.cleanUpWaitFor txnTs lockDigest
  | cleanUp txnTs =>
    cases hstep
    exact hinv.cleanUp txnTs
  | clear =>
    cases hstep
    exact hinv.clear
  | resetTtl ttl =>
    cases hstep
    exact ⟨hinv.nonempty, hinv.locks, hinv.nonzero, hinv.acyclic⟩

theorem Reachable.inv {ttl now : Nat} {table : DetectTable} (h : Reachable ttl now table) :
    TableInv table := by
  induction h with
  | init => exact TableInv.new ttl now
  | step _ hvalid hstep ih => exact ih.step hvalid hstep

/-- What the detector guarantees at a table: its edges form no cycle, every
inner map and every `Locks` is non-empty with distinct key hashes, and a valid
`detect` call from it reports a deadlock exactly when one exists among the
edges not expired, with a path of them and no edge added, and otherwise
leaves the edge it was asked about in the table. -/
structure DetectorSafe (table : DetectTable) : Prop where
  acyclic : ∀ a, ¬ Relation.TransGen (Waits table) a a
  waitFor_ne_nil : ∀ a waitFor, table.waitForMap.lookup a = some waitFor → waitFor.entries ≠ []
  keys_ne_nil : ∀ a waitFor b locks, table.waitForMap.lookup a = some waitFor →
    waitFor.lookup b = some locks → locks.keys ≠ []
  hashes_nodup : ∀ a waitFor b locks, table.waitForMap.lookup a = some waitFor →
    waitFor.lookup b = some locks → (locks.keys.map (·.1)).Nodup
  detect : ∀ now txnTs lockTs lockHash key tag, txnTs ≠ lockTs → lockTs ≠ 0 →
    ∃ table' r, table.detect now txnTs lockTs lockHash key tag = .ok (table', r) ∧
      (r.isSome ↔ Relation.TransGen (LiveWaits { table with now := now }) lockTs txnTs) ∧
      (∀ hash chain, r = some (hash, chain) →
        WaitChain (LiveWaits { table with now := now }) lockTs txnTs chain ∧
          ∀ a b, Waits table' a b → Waits table a b) ∧
      (r = none → Waits table' txnTs lockTs)

theorem TableInv.safe {table : DetectTable} (hinv : TableInv table) : DetectorSafe table where
  acyclic := hinv.acyclic
  waitFor_ne_nil := hinv.nonempty
  keys_ne_nil a w b l hw hl := (hinv.locks a w b l hw hl).keys_ne_nil
  hashes_nodup a w b l hw hl := (hinv.locks a w b l hw hl).hashes_nodup
  detect now txnTs lockTs lockHash key tag hne hlock := by
    obtain ⟨table', r, hrun, -, hiff, hsome, hnone⟩ :=
      detect_spec hinv now txnTs lockTs lockHash key tag hne hlock
    exact ⟨table', r, hrun, hiff, hsome, hnone⟩

theorem detect_table_safe {ttl now : Nat} {table : DetectTable} (h : Reachable ttl now table) :
    DetectorSafe table :=
  h.inv.safe

theorem detect_table_safe_oneEdge :
    ∃ table, Reachable 3000 0 table ∧ Waits table 1 2 ∧ DetectorSafe table := by
  have h₁ := @Reachable.step 3000 0 _ _ (.detect 0 1 2 7 [] []) _ .init ⟨by decide, by decide⟩ rfl
  exact ⟨_, h₁, ⟨_, rfl, by decide⟩, detect_table_safe h₁⟩

/-- With `lockTs = 0` the sentinel predecessor of the search's start is the
start itself, so a deadlock through it trips the assertion of
`generate_wait_chain`. -/
theorem detect_zero_ts_panics : ∃ table, Reachable 10 0 table ∧
    Relation.TransGen (LiveWaits { table with now := 2 }) 0 2 ∧
    table.detect 2 2 0 0 [] [] = .error "assertion `left == right` failed" := by
  have h₁ := @Reachable.step 10 0 _ _ (.detect 0 0 1 0 [] []) _ .init ⟨by decide, by decide⟩ rfl
  have h₂ := @Reachable.step 10 0 _ _ (.detect 1 1 2 0 [] []) _ h₁ ⟨by decide, by decide⟩ rfl
  refine ⟨_, h₂, .tail (b := 1) (.single ⟨_, rfl, ?_⟩) ⟨_, rfl, ?_⟩, rfl⟩ <;> decide

end Tikv.LockManager
