import Tikv.Scheduler.Latch

/-!
# The latch protocol of the scheduler

Each command comes with a lock whose hashes are sorted and distinct
(`Lock::new`). It calls `acquire` once on arrival and again only after a
`release` has named it in its wake-up list; once `acquire` returns true it
runs and calls `release` once. `hashes c` are the hashes of the lock of
command `c`; `Sched` holds the latches, the `owned_count` of each lock, and
where each command stands (`Phase`).

Every reachable state keeps `Inv`: the queue of a hash holds, once each,
the commands that hold it or wait on it; a command heads the queues of the
hashes it holds; a waiting command does not head the queue of the hash it
waits on, and a woken one does. From it, two commands holding all their
latches share no hash, and the waits-for relation between distinct commands
has no cycle, since a command only waits for one that holds a smaller hash
than the one it waits on itself, or is woken. A release wakes every command
it puts at the head of the hash it waits on, and no call of the protocol
fails an assertion.

A woken command that has not called `acquire` again heads the queue of the
hash it waits on: it waits for itself (`woken_waits_for_self`).

Results:
* `step_acquire_inv`, `step_release_inv`, `Reachable.inv`: the invariant
  over every run.
* `latches_safe`: mutual exclusion, the queue structure, no cycle of
  waits, no lost wake-up, and no failed assertion, over every run.
-/
namespace Tikv.Scheduler

open KeyedQueue

/-- Where a command stands with its latches. -/
inductive Phase where
  | fresh
  | waiting
  | woken
  | holding
  | released
  deriving DecidableEq, Repr

/-- A command with entries in the queues. -/
def Phase.active : Phase → Bool
  | .waiting | .woken | .holding => true
  | .fresh | .released => false

/-- A command that waits on a hash. -/
def Phase.blocked : Phase → Bool
  | .waiting | .woken => true
  | .fresh | .holding | .released => false

/-- The latches, and each command's `owned_count` and phase. -/
structure Sched where
  latches : Latches
  owned : Nat → Nat
  phase : Nat → Phase

/-- A call of the protocol. -/
inductive Call where
  | acquire (cid : Nat)
  | release (cid : Nat)
  deriving DecidableEq, Repr

section Protocol

variable (hashes : Nat → List Nat)

/-- No command has arrived. -/
def Sched.init (size : Nat) : Sched :=
  ⟨Latches.new size, fun _ => 0, fun _ => .fresh⟩

/-- A command's lock. -/
def Sched.lock (σ : Sched) (cid : Nat) : Lock :=
  ⟨hashes cid, σ.owned cid⟩

/-- The hash a command waits on: the first one it does not hold. -/
def Sched.blocking (σ : Sched) (cid : Nat) : Option Nat :=
  (hashes cid)[σ.owned cid]?

/-- The hashes a command is queued on: those it holds and the one it waits on. -/
def Sched.queuedOn (σ : Sched) (cid : Nat) : List Nat :=
  if (σ.phase cid).active then (hashes cid).take (σ.owned cid + 1) else []

/-- A call, and the wake-up list it returns. -/
def Sched.step (σ : Sched) : Call → Except String (Sched × List Nat)
  | .acquire c =>
    let r := σ.latches.acquire (σ.lock hashes c) c
    .ok (⟨r.1, Function.update σ.owned c r.2.1.ownedCount,
      Function.update σ.phase c (if r.2.2 then .holding else .waiting)⟩, [])
  | .release c => do
    let r ← σ.latches.release (σ.lock hashes c) c none
    pure (⟨r.1, σ.owned, fun d => if d = c then .released else if d ∈ r.2 then .woken else σ.phase d⟩,
      r.2)

/-- The calls the protocol lets a command make: `acquire` on arrival or once
woken, `release` once it holds all its latches. -/
def Allowed (σ : Sched) : Call → Prop
  | .acquire c => σ.phase c = .fresh ∨ σ.phase c = .woken
  | .release c => σ.phase c = .holding

/-- The states reached by calls of the protocol. -/
inductive Reachable (size : Nat) : Sched → Prop
  | init : Reachable size (Sched.init size)
  | step {σ σ' : Sched} {call : Call} {wakeup : List Nat} : Reachable size σ → Allowed σ call →
      σ.step hashes call = .ok (σ', wakeup) → Reachable size σ'

/-- `c` waits for the first command queued on the hash it waits on. -/
def WaitsFor (σ : Sched) (c d : Nat) : Prop :=
  (σ.phase c).blocked = true ∧
    ∃ h, σ.blocking hashes c = some h ∧ (σ.latches.queue h).head? = some d

/-- The invariant of the protocol. -/
structure Inv (σ : Sched) : Prop where
  mem : ∀ h c, c ∈ σ.latches.queue h ↔ h ∈ σ.queuedOn hashes c
  nodup : ∀ h, (σ.latches.queue h).Nodup
  owner : ∀ c, (σ.phase c).active = true →
    ∀ h ∈ (hashes c).take (σ.owned c), (σ.latches.queue h).head? = some c
  holding : ∀ c, σ.phase c = .holding → σ.owned c = (hashes c).length
  blocked : ∀ c, (σ.phase c).blocked = true → σ.owned c < (hashes c).length
  waiting : ∀ c h, σ.phase c = .waiting → σ.blocking hashes c = some h →
    (σ.latches.queue h).head? ≠ some c
  woken : ∀ c h, σ.phase c = .woken → σ.blocking hashes c = some h →
    (σ.latches.queue h).head? = some c
  fresh : ∀ c, σ.phase c = .fresh → σ.owned c = 0

/-! ## Sorted hashes and queues with one command appended -/

theorem mem_take_add_one_iff {l : List Nat} {i x : Nat} :
    x ∈ l.take (i + 1) ↔ x ∈ l.take i ∨ l[i]? = some x := by
  rw [List.take_add_one, List.mem_append]
  cases l[i]? <;> simp [eq_comm]

/-- In a strictly increasing list, the entries before index `i` lie below the
entry at `i`. -/
theorem lt_of_mem_take {l : List Nat} (hl : l.Pairwise (· < ·)) {i x y : Nat}
    (hx : x ∈ l.take i) (hy : l[i]? = some y) : x < y := by
  have hy' : y ∈ l.drop i := List.mem_of_getElem? (i := 0) (by rw [List.getElem?_drop]; exact hy)
  rw [← List.take_append_drop i l] at hl
  exact (List.pairwise_append.mp hl).2.2 x hx y hy'

section Appended

variable {queues queues' : Nat → List Nat} {c : Nat} {P : Nat → Prop} [DecidablePred P]

/-- Queues after `c` is appended to those that satisfy `P` and lack it. -/
def Appended (queues queues' : Nat → List Nat) (c : Nat) (P : Nat → Prop) [DecidablePred P] :
    Prop :=
  ∀ x, queues' x = if P x ∧ c ∉ queues x then queues x ++ [c] else queues x

theorem Appended.mem_of_ne (h : Appended queues queues' c P) {x d : Nat} (hd : d ≠ c) :
    d ∈ queues' x ↔ d ∈ queues x := by
  rw [h x]
  split <;> simp [hd]

theorem Appended.mem_self (h : Appended queues queues' c P) (x : Nat) :
    c ∈ queues' x ↔ c ∈ queues x ∨ P x := by
  rw [h x]
  by_cases hp : P x <;> by_cases hc : c ∈ queues x <;> simp [hp, hc]

theorem Appended.nodup (h : Appended queues queues' c P) {x : Nat} (hx : (queues x).Nodup) :
    (queues' x).Nodup := by
  rw [h x]
  split
  · rename_i hpc
    exact List.nodup_append.mpr ⟨hx, List.nodup_singleton c, fun a ha b hb => by
      rw [List.mem_singleton.mp hb]
      exact fun he => hpc.2 (he ▸ ha)⟩
  · exact hx

/-- A queue that is not empty keeps its head. -/
theorem Appended.head?_of_mem (h : Appended queues queues' c P) {x d : Nat} (hd : d ∈ queues x) :
    (queues' x).head? = (queues x).head? := by
  rw [h x]
  split
  · obtain ⟨a, t, ht⟩ := List.exists_cons_of_ne_nil (List.ne_nil_of_mem hd)
    simp [ht]
  · rfl

end Appended

/-! ## One `acquire` -/

section Acquire

variable {hashes : Nat → List Nat} {σ : Sched} {c : Nat}

theorem blocking_mem_queuedOn {d h : Nat} (hact : (σ.phase d).active = true)
    (hb : σ.blocking hashes d = some h) : h ∈ σ.queuedOn hashes d := by
  rw [Sched.queuedOn, if_pos hact]
  exact mem_take_add_one_iff.mpr (.inr hb)

/-- Before `acquire`, a fresh or woken command heads every queue it is on, is
on the queues of the hashes it holds, and holds no more hashes than it has. -/
theorem acquire_pre (hinv : Inv hashes σ) (hallowed : σ.phase c = .fresh ∨ σ.phase c = .woken) :
    (∀ x, c ∈ σ.latches.queue x → (σ.latches.queue x).head? = some c) ∧
      (∀ x ∈ (hashes c).take (σ.owned c), c ∈ σ.latches.queue x) ∧
      σ.owned c ≤ (hashes c).length := by
  rcases hallowed with hf | hw
  · have hq : ∀ x, c ∉ σ.latches.queue x := fun x hx => by
      have hon := (hinv.mem x c).mp hx
      simp [Sched.queuedOn, hf, Phase.active] at hon
    refine ⟨fun x hx => absurd hx (hq x), fun x hx => ?_, by simp [hinv.fresh c hf]⟩
    rw [hinv.fresh c hf] at hx
    simp at hx
  · have hact : (σ.phase c).active = true := by rw [hw]; rfl
    refine ⟨fun x hx => ?_, fun x hx => (hinv.mem x c).mpr ?_,
      Nat.le_of_lt (hinv.blocked c (by rw [hw]; rfl))⟩
    · have hq := (hinv.mem x c).mp hx
      rw [Sched.queuedOn, if_pos hact, mem_take_add_one_iff] at hq
      rcases hq with hown | hblock
      · exact hinv.owner c hact x hown
      · exact hinv.woken c x hw hblock
    · rw [Sched.queuedOn, if_pos hact]
      exact mem_take_add_one_iff.mpr (.inl hx)

/-- One `acquire` of a fresh or woken command: it passes `k` more hashes and
heads their queues; the hash it stops at, if any, is headed by another
command; and it is appended to the queues it was not on, up to that hash. -/
theorem acquire_spec (hsorted : (hashes c).Pairwise (· < ·)) (hinv : Inv hashes σ)
    (hallowed : σ.phase c = .fresh ∨ σ.phase c = .woken) :
    ∃ k, σ.owned c + k ≤ (hashes c).length ∧
      (σ.latches.acquire (σ.lock hashes c) c).2.1.ownedCount = σ.owned c + k ∧
      ((σ.latches.acquire (σ.lock hashes c) c).2.2 = true ↔ σ.owned c + k = (hashes c).length) ∧
      (∀ x ∈ (hashes c).take (σ.owned c + k),
        ((σ.latches.acquire (σ.lock hashes c) c).1.queue x).head? = some c) ∧
      (∀ x, (hashes c)[σ.owned c + k]? = some x →
        (σ.latches.queue x).head?.isSome ∧ (σ.latches.queue x).head? ≠ some c) ∧
      Appended σ.latches.queue (σ.latches.acquire (σ.lock hashes c) c).1.queue c
        (· ∈ (hashes c).take (σ.owned c + k + 1)) := by
  obtain ⟨hhead, howned, hle⟩ := acquire_pre hinv hallowed
  have hnd : ((hashes c).drop (σ.owned c)).Nodup :=
    (hsorted.imp Nat.ne_of_lt).sublist (List.drop_sublist _ _)
  obtain ⟨k, hk, hn, hpass, hstop, hq'⟩ :=
    acquireQueues_spec c hnd σ.latches.queue (fun x _ hx => hhead x hx) 0
  obtain ⟨hqueue, hcount⟩ := Latches.acquireGo_queue c σ.latches ((hashes c).drop (σ.owned c)) 0
  have hkle : σ.owned c + k ≤ (hashes c).length := by
    simp only [List.length_drop] at hk
    omega
  -- the acquired hashes: those held before, then the `k` passed now
  have hheld : ∀ x ∈ (hashes c).take (σ.owned c), c ∈ σ.latches.queue x ∧
      (σ.latches.acquire (σ.lock hashes c) c).1.queue x = σ.latches.queue x := fun x hx => by
    refine ⟨howned x hx, ?_⟩
    simp only [Latches.acquire, Sched.lock, hqueue, hq', howned x hx, not_true_eq_false, and_false,
      if_false]
  refine ⟨k, hkle, ?_, ?_, fun x hx => ?_, fun x hx => ?_, fun x => ?_⟩
  · simp [Latches.acquire, Sched.lock, hcount, hn]
  · simp only [Latches.acquire, Sched.lock, Lock.acquired, hcount, hn, beq_iff_eq]
    constructor <;> intro h <;> omega
  · rw [List.take_add, List.mem_append] at hx
    rcases hx with hx | hx
    · rw [(hheld x hx).2]
      exact hhead x (hheld x hx).1
    · simpa [Latches.acquire, Sched.lock, hqueue] using hpass x hx
  · have hx' : x ∈ ((hashes c).drop (σ.owned c) |>.drop k).head? := by
      rw [List.head?_drop, List.getElem?_drop]
      exact hx
    exact hstop x hx'
  · show (Latches.acquireGo c σ.latches ((hashes c).drop (σ.owned c)) 0).1.queue x = _
    rw [hqueue, hq' x]
    by_cases hc : c ∈ σ.latches.queue x
    · simp [hc]
    · have hx : x ∉ (hashes c).take (σ.owned c) := fun hx => hc (howned x hx)
      simp [hc, List.take_add, hx, Nat.add_assoc]

/-- What an `acquire` call does to the state: it returns no wake-up list,
raises the command's `owned_count` by the `k` hashes it passes, makes it
holding or waiting, and only appends it to queues. -/
theorem step_acquire_cases (hsorted : (hashes c).Pairwise (· < ·)) (hinv : Inv hashes σ)
    (hallowed : σ.phase c = .fresh ∨ σ.phase c = .woken) {σ' : Sched} {wakeup : List Nat}
    (h : σ.step hashes (.acquire c) = .ok (σ', wakeup)) :
    wakeup = [] ∧ ∃ k, σ.owned c + k ≤ (hashes c).length ∧
      σ'.owned = Function.update σ.owned c (σ.owned c + k) ∧
      σ'.phase = Function.update σ.phase c
        (if σ.owned c + k = (hashes c).length then .holding else .waiting) ∧
      (∀ x ∈ (hashes c).take (σ.owned c + k), (σ'.latches.queue x).head? = some c) ∧
      (∀ x, (hashes c)[σ.owned c + k]? = some x →
        (σ.latches.queue x).head?.isSome ∧ (σ.latches.queue x).head? ≠ some c) ∧
      Appended σ.latches.queue σ'.latches.queue c (· ∈ (hashes c).take (σ.owned c + k + 1)) := by
  simp only [Sched.step, Except.ok.injEq, Prod.mk.injEq] at h
  obtain ⟨rfl, rfl⟩ := h
  obtain ⟨k, hkle, hcount, hacq, hpass, hstop, happ⟩ := acquire_spec hsorted hinv hallowed
  refine ⟨rfl, k, hkle, by rw [hcount], ?_, hpass, hstop, happ⟩
  by_cases hfull : σ.owned c + k = (hashes c).length
  · simp [hacq.mpr hfull, hfull]
  · have hnot : (σ.latches.acquire (σ.lock hashes c) c).2.2 = false := by
      cases hb : (σ.latches.acquire (σ.lock hashes c) c).2.2 with
      | false => rfl
      | true => exact absurd (hacq.mp hb) hfull
    simp [hnot, hfull]

/-- An `acquire` keeps the invariant. -/
theorem step_acquire_inv (hsorted : (hashes c).Pairwise (· < ·)) (hinv : Inv hashes σ)
    (hallowed : σ.phase c = .fresh ∨ σ.phase c = .woken) {σ' : Sched} {wakeup : List Nat}
    (h : σ.step hashes (.acquire c) = .ok (σ', wakeup)) : Inv hashes σ' := by
  obtain ⟨-, k, hkle, howned, hphase, hpass, hstop, happ⟩ :=
    step_acquire_cases hsorted hinv hallowed h
  have hother : ∀ d, d ≠ c → σ'.owned d = σ.owned d ∧ σ'.phase d = σ.phase d := fun d hd => by
    simp [howned, hphase, Function.update_of_ne hd]
  have hc_owned : σ'.owned c = σ.owned c + k := by simp [howned]
  have hc_phase : σ'.phase c = if σ.owned c + k = (hashes c).length then .holding else .waiting := by
    simp [hphase]
  have hc_active : (σ'.phase c).active = true := by
    rw [hc_phase]
    split <;> rfl
  have hqueuedOn : ∀ d, d ≠ c → σ'.queuedOn hashes d = σ.queuedOn hashes d := fun d hd => by
    simp [Sched.queuedOn, hother d hd]
  have hblocking : ∀ d, d ≠ c → σ'.blocking hashes d = σ.blocking hashes d := fun d hd => by
    simp [Sched.blocking, hother d hd]
  -- the hash another blocked command waits on holds it, so its head stays
  have hstays : ∀ d x, d ≠ c → (σ.phase d).active = true → σ.blocking hashes d = some x →
      (σ'.latches.queue x).head? = (σ.latches.queue x).head? := fun d x _ hact hb =>
    happ.head?_of_mem ((hinv.mem x d).mpr (blocking_mem_queuedOn hact hb))
  refine ⟨fun x d => ?_, fun x => happ.nodup (hinv.nodup x), fun d hact x hx => ?_,
    fun d hhold => ?_, fun d hblk => ?_, fun d x hwait hb => ?_, fun d x hwoken hb => ?_,
    fun d hfresh => ?_⟩
  · by_cases hd : d = c
    · subst hd
      rw [happ.mem_self, Sched.queuedOn, if_pos hc_active, hc_owned]
      refine ⟨fun hin => hin.elim (fun hin => ?_) id, .inr⟩
      have hon := (hinv.mem x d).mp hin
      rcases hallowed with hf | hw
      · simp [Sched.queuedOn, hf, Phase.active] at hon
      · rw [Sched.queuedOn, if_pos (by rw [hw]; rfl)] at hon
        exact List.take_subset_take_left _ (by omega) hon
    · rw [happ.mem_of_ne hd, hinv.mem, hqueuedOn d hd]
  · by_cases hd : d = c
    · subst hd
      rw [hc_owned] at hx
      exact hpass x hx
    · rw [(hother d hd).1] at hx
      rw [(hother d hd).2] at hact
      have hhead := hinv.owner d hact x hx
      rw [happ.head?_of_mem (List.mem_of_mem_head? hhead), hhead]
  · by_cases hd : d = c
    · subst hd
      rw [hc_phase] at hhold
      split at hhold
      · rw [hc_owned]
        assumption
      · cases hhold
    · rw [(hother d hd).2] at hhold
      rw [(hother d hd).1]
      exact hinv.holding d hhold
  · by_cases hd : d = c
    · subst hd
      rw [hc_phase] at hblk
      split at hblk
      · cases hblk
      · rw [hc_owned]
        omega
    · rw [(hother d hd).2] at hblk
      rw [(hother d hd).1]
      exact hinv.blocked d hblk
  · by_cases hd : d = c
    · -- the command stopped behind another one
      subst hd
      rw [Sched.blocking, hc_owned] at hb
      obtain ⟨hsome, hne⟩ := hstop x hb
      obtain ⟨e, he⟩ := Option.isSome_iff_exists.mp hsome
      rw [happ.head?_of_mem (List.mem_of_mem_head? he)]
      exact hne
    · rw [(hother d hd).2] at hwait
      rw [hblocking d hd] at hb
      rw [hstays d x hd (by rw [hwait]; rfl) hb]
      exact hinv.waiting d x hwait hb
  · by_cases hd : d = c
    · subst hd
      rw [hc_phase] at hwoken
      split at hwoken <;> cases hwoken
    · rw [(hother d hd).2] at hwoken
      rw [hblocking d hd] at hb
      rw [hstays d x hd (by rw [hwoken]; rfl) hb]
      exact hinv.woken d x hwoken hb
  · by_cases hd : d = c
    · subst hd
      rw [hc_phase] at hfresh
      split at hfresh <;> cases hfresh
    · rw [(hother d hd).2] at hfresh
      rw [(hother d hd).1]
      exact hinv.fresh d hfresh

end Acquire

/-! ## One `release` -/

/-- The queues after the holder `c` of all its hashes comes off them. -/
def Sched.releasedQueues (σ : Sched) (c : Nat) (x : Nat) : List Nat :=
  if x ∈ hashes c then (σ.latches.queue x).tail else σ.latches.queue x

/-- The wake-up list of `release`: the next command of each hash of `c`. -/
def Sched.wakeupOf (σ : Sched) (c : Nat) : List Nat :=
  (hashes c).filterMap fun x => (σ.latches.queue x).tail.head?

/-- The phases after `c` releases: it is done, and those it wakes are woken. -/
def Sched.releasedPhase (σ : Sched) (c : Nat) (d : Nat) : Phase :=
  if d = c then .released else if d ∈ σ.wakeupOf hashes c then .woken else σ.phase d

section Release

variable {hashes : Nat → List Nat} {σ : Sched} {c : Nat}

/-- A holding command heads the queue of each of its hashes. -/
theorem head_of_holding (hinv : Inv hashes σ) (hhold : σ.phase c = .holding) {x : Nat}
    (hx : x ∈ hashes c) : (σ.latches.queue x).head? = some c := by
  have hact : (σ.phase c).active = true := by rw [hhold]; rfl
  refine hinv.owner c hact x ?_
  rw [hinv.holding c hhold, List.take_length]
  exact hx

/-- The hashes a holding command releases: all those of its lock. -/
theorem lock_take_of_holding (hinv : Inv hashes σ) (hhold : σ.phase c = .holding) :
    (σ.lock hashes c).requiredHashes.take (σ.lock hashes c).ownedCount = hashes c := by
  rw [Sched.lock, hinv.holding c hhold, List.take_length]

/-- `release` by a holding command succeeds: it comes off the head of each of
its hashes, and the wake-up list is the next command of each. -/
theorem release_spec (hsorted : (hashes c).Pairwise (· < ·)) (hinv : Inv hashes σ)
    (hhold : σ.phase c = .holding) :
    ∃ σ' : Sched, σ'.latches.queue = σ.releasedQueues hashes c ∧ σ'.owned = σ.owned ∧
      σ'.phase = σ.releasedPhase hashes c ∧
      σ.step hashes (.release c) = .ok (σ', σ.wakeupOf hashes c) := by
  have htake := lock_take_of_holding hinv hhold
  have hnd : ((σ.lock hashes c).requiredHashes.take (σ.lock hashes c).ownedCount).Nodup := by
    rw [htake]
    exact hsorted.imp Nat.ne_of_lt
  obtain ⟨latches', hrun, hqueue⟩ := @Latches.release_queue _ _ _ none hsorted
    (fun x hx => head_of_holding hinv hhold (htake ▸ hx)) (fun _ _ h => nomatch h)
  obtain ⟨hq, hw⟩ := releaseQueues_spec (Latches.keptFor none) σ.latches.queue hnd
  have hwake : (releaseQueues (Latches.keptFor none) σ.latches.queue
      ((σ.lock hashes c).requiredHashes.take (σ.lock hashes c).ownedCount)).2 =
      σ.wakeupOf hashes c := by
    rw [hw, Sched.wakeupOf, htake]
    simp [Latches.keptFor]
  refine ⟨⟨latches', σ.owned, σ.releasedPhase hashes c⟩, ?_, rfl, rfl, ?_⟩
  · show latches'.queue = _
    rw [hqueue, hq]
    funext x
    simp [Sched.releasedQueues, htake, Latches.keptFor]
  · rw [← hwake]
    simp only [Sched.step, hrun, bind, Except.bind, pure, Except.pure, hwake]
    rfl

/-- `release` keeping a sorted part of the holder's hashes for command `n`
succeeds, puts `n` at the head of each kept hash, and wakes the next command
of each other hash. -/
theorem release_keep (hsorted : (hashes c).Pairwise (· < ·)) (hinv : Inv hashes σ)
    (hhold : σ.phase c = .holding) (n : Nat) {next : Lock}
    (hnext : next.requiredHashes.Pairwise (· < ·)) (hsub : ∀ x ∈ next.requiredHashes, x ∈ hashes c) :
    ∃ latches', σ.latches.release (σ.lock hashes c) c (some (n, next)) =
        .ok (latches', (hashes c).filterMap fun x =>
          if x ∈ next.requiredHashes then none else (σ.latches.queue x).tail.head?) ∧
      ∀ x ∈ next.requiredHashes, (latches'.queue x).head? = some n := by
  have htake := lock_take_of_holding hinv hhold
  have hnd : ((σ.lock hashes c).requiredHashes.take (σ.lock hashes c).ownedCount).Nodup := by
    rw [htake]
    exact hsorted.imp Nat.ne_of_lt
  obtain ⟨latches', hrun, hqueue⟩ := @Latches.release_queue _ _ _ (some (n, next)) hsorted
    (fun x hx => head_of_holding hinv hhold (htake ▸ hx))
    (fun _ _ h => by
      cases h
      exact ⟨hnext, fun k hk => htake ▸ hsub k hk⟩)
  obtain ⟨hq, hw⟩ := releaseQueues_spec (Latches.keptFor (some (n, next))) σ.latches.queue hnd
  refine ⟨latches', ?_, fun x hx => ?_⟩
  · rw [hrun, hw, htake]
    simp [Latches.keptFor]
  · rw [hqueue, hq]
    simp [htake, hsub x hx, Latches.keptFor, hx]

/-- A command the release wakes is the next one on a hash of `c`; it waits on
that hash, and not as its holder. -/
theorem mem_wakeupOf (hinv : Inv hashes σ) (hhold : σ.phase c = .holding) {d : Nat}
    (hd : d ∈ σ.wakeupOf hashes c) :
    d ≠ c ∧ (σ.phase d).blocked = true ∧ ∃ x ∈ hashes c, σ.blocking hashes d = some x ∧
      (σ.latches.queue x).tail.head? = some d := by
  obtain ⟨x, hx, hnext⟩ := List.mem_filterMap.mp hd
  have hhead := head_of_holding hinv hhold hx
  obtain ⟨t, ht⟩ : ∃ t, σ.latches.queue x = c :: t := by
    cases hq : σ.latches.queue x with
    | nil => simp [hq] at hhead
    | cons a t => simp_all
  have hdt : d ∈ t := by
    rw [ht] at hnext
    exact List.mem_of_mem_head? hnext
  have hdc : d ≠ c := fun he => (List.nodup_cons.mp (ht ▸ hinv.nodup x)).1 (he ▸ hdt)
  have hon : x ∈ σ.queuedOn hashes d := (hinv.mem x d).mp (by rw [ht]; exact .tail _ hdt)
  have hact : (σ.phase d).active = true := by
    by_contra hna
    simp [Sched.queuedOn, hna] at hon
  rw [Sched.queuedOn, if_pos hact, mem_take_add_one_iff] at hon
  -- on a hash it holds, `d` would head the queue in place of `c`
  have hb : σ.blocking hashes d = some x := hon.resolve_left fun hown => by
    have := hinv.owner d hact x hown
    rw [hhead] at this
    exact hdc (Option.some_inj.mp this).symm
  refine ⟨hdc, ?_, x, hx, hb, hnext⟩
  cases hp : σ.phase d with
  | fresh | released => simp [hp, Phase.active] at hact
  | waiting | woken => rfl
  | holding =>
    have hlen := hinv.holding d hp
    simp [Sched.blocking, hlen] at hb

/-- A `release` keeps the invariant. -/
theorem step_release_inv (hsorted : (hashes c).Pairwise (· < ·)) (hinv : Inv hashes σ)
    (hhold : σ.phase c = .holding) {σ' : Sched} {wakeup : List Nat}
    (h : σ.step hashes (.release c) = .ok (σ', wakeup)) : Inv hashes σ' := by
  obtain ⟨σ'', hqueue, howned, hphase', hrun⟩ := release_spec hsorted hinv hhold
  rw [hrun, Except.ok.injEq, Prod.mk.injEq] at h
  obtain ⟨rfl, -⟩ := h
  have hcact : (σ.phase c).active = true := by rw [hhold]; rfl
  -- `c` heads each of its hashes and is queued on no other
  have hcq : ∀ x, x ∈ hashes c ↔ c ∈ σ.latches.queue x := fun x => by
    rw [hinv.mem, Sched.queuedOn, if_pos hcact, hinv.holding c hhold,
      List.take_of_length_le (Nat.le_succ _)]
  have hcons : ∀ x ∈ hashes c, σ.latches.queue x = c :: (σ.latches.queue x).tail := fun x hx => by
    have hhead := head_of_holding hinv hhold hx
    cases hq : σ.latches.queue x with
    | nil => simp [hq] at hhead
    | cons a t => simp_all
  have hmem : ∀ x d, d ≠ c → (d ∈ σ.releasedQueues hashes c x ↔ d ∈ σ.latches.queue x) :=
    fun x d hd => by
      unfold Sched.releasedQueues
      split
      · rename_i hx
        rw [hcons x hx, List.tail_cons, List.mem_cons]
        simp [hd]
      · rfl
  -- an old head other than `c` stays the head
  have hkeep : ∀ x d, d ≠ c → (σ.latches.queue x).head? = some d →
      (σ.releasedQueues hashes c x).head? = some d := fun x d hd hh => by
    unfold Sched.releasedQueues
    split
    · rename_i hx
      rw [head_of_holding hinv hhold hx] at hh
      exact absurd (Option.some_inj.mp hh).symm hd
    · exact hh
  have hphase : ∀ d, d ≠ c → d ∉ σ.wakeupOf hashes c → σ''.phase d = σ.phase d := fun d hd hw => by
    simp [hphase', Sched.releasedPhase, hd, hw]
  have hactive : ∀ d, d ≠ c → (σ''.phase d).active = (σ.phase d).active := fun d hd => by
    by_cases hw : d ∈ σ.wakeupOf hashes c
    · obtain ⟨-, hblk, -⟩ := mem_wakeupOf hinv hhold hw
      simp only [hphase', Sched.releasedPhase, hd, hw, if_false, if_true]
      cases hp : σ.phase d <;> simp_all [Phase.active, Phase.blocked]
    · rw [hphase d hd hw]
  have hc : σ''.phase c = .released := by simp [hphase', Sched.releasedPhase]
  have hwoken : ∀ d ∈ σ.wakeupOf hashes c, σ''.phase d = .woken := fun d hw => by
    simp [hphase', Sched.releasedPhase, hw, (mem_wakeupOf hinv hhold hw).1]
  refine ⟨fun x d => ?_, fun x => ?_, fun d hact x hx => ?_, fun d hd' => ?_, fun d hblk => ?_,
    fun d x hwait hb => ?_, fun d x hwoken' hb => ?_, fun d hfresh => ?_⟩
  · -- `mem`
    rw [hqueue]
    by_cases hd : d = c
    · subst hd
      simp only [Sched.queuedOn, hc, Phase.active, Bool.false_eq_true, if_false, List.not_mem_nil,
        iff_false]
      unfold Sched.releasedQueues
      split
      · rename_i hx
        have hnd := hinv.nodup x
        rw [hcons x hx] at hnd
        exact (List.nodup_cons.mp hnd).1
      · rename_i hx
        rwa [hcq] at hx
    · rw [hmem x d hd, hinv.mem]
      simp only [Sched.queuedOn, hactive d hd, howned]
  · -- `nodup`
    rw [hqueue]
    unfold Sched.releasedQueues
    split
    · exact (hinv.nodup x).sublist (List.tail_sublist _)
    · exact hinv.nodup x
  · -- `owner`
    have hd : d ≠ c := by rintro rfl; simp [hc, Phase.active] at hact
    rw [hactive d hd] at hact
    rw [howned] at hx
    rw [hqueue]
    exact hkeep x d hd (hinv.owner d hact x hx)
  · -- `holding`
    have hd : d ≠ c := by rintro rfl; simp [hc] at hd'
    have hw : d ∉ σ.wakeupOf hashes c := fun hw => by simp [hwoken d hw] at hd'
    rw [hphase d hd hw] at hd'
    rw [howned]
    exact hinv.holding d hd'
  · -- `blocked`
    have hd : d ≠ c := by rintro rfl; simp [hc, Phase.blocked] at hblk
    rw [howned]
    by_cases hw : d ∈ σ.wakeupOf hashes c
    · exact hinv.blocked d (mem_wakeupOf hinv hhold hw).2.1
    · rw [hphase d hd hw] at hblk
      exact hinv.blocked d hblk
  · -- `waiting`: a waiting command the release would put first is woken
    have hd : d ≠ c := by rintro rfl; simp [hc] at hwait
    have hw : d ∉ σ.wakeupOf hashes c := fun hw => by simp [hwoken d hw] at hwait
    rw [hphase d hd hw] at hwait
    rw [Sched.blocking, howned] at hb
    rw [hqueue]
    unfold Sched.releasedQueues
    split
    · rename_i hx
      exact fun hnext => hw (List.mem_filterMap.mpr ⟨x, hx, hnext⟩)
    · exact hinv.waiting d x hwait hb
  · -- `woken`
    have hd : d ≠ c := by rintro rfl; simp [hc] at hwoken'
    rw [Sched.blocking, howned] at hb
    rw [hqueue]
    by_cases hw : d ∈ σ.wakeupOf hashes c
    · obtain ⟨-, -, y, hy, hby, hnext⟩ := mem_wakeupOf hinv hhold hw
      rw [Sched.blocking, hb, Option.some_inj] at hby
      subst hby
      simp [Sched.releasedQueues, hy, hnext]
    · rw [hphase d hd hw] at hwoken'
      exact hkeep x d hd (hinv.woken d x hwoken' hb)
  · -- `fresh`
    have hd : d ≠ c := by rintro rfl; simp [hc] at hfresh
    have hw : d ∉ σ.wakeupOf hashes c := fun hw => by simp [hwoken d hw] at hfresh
    rw [hphase d hd hw] at hfresh
    rw [howned]
    exact hinv.fresh d hfresh

end Release

/-! ## Every run -/

theorem Inv.init (size : Nat) : Inv hashes (Sched.init size) where
  mem h c := by simp [Sched.init, Sched.queuedOn, Phase.active]
  nodup h := by simp [Sched.init]
  owner c hact := by simp [Sched.init, Phase.active] at hact
  holding c h := by simp [Sched.init] at h
  blocked c h := by simp [Sched.init, Phase.blocked] at h
  waiting c h hw := by simp [Sched.init] at hw
  woken c h hw := by simp [Sched.init] at hw
  fresh c _ := rfl

section Run

variable {hashes : Nat → List Nat} {σ : Sched}

/-- Every allowed call succeeds. -/
theorem step_ok (hsorted : ∀ c, (hashes c).Pairwise (· < ·)) (hinv : Inv hashes σ) {call : Call}
    (hallowed : Allowed σ call) : ∃ r, σ.step hashes call = .ok r := by
  cases call with
  | acquire c => exact ⟨_, rfl⟩
  | release c =>
    obtain ⟨σ', -, -, -, hrun⟩ := release_spec (hsorted c) hinv hallowed
    exact ⟨_, hrun⟩

/-- The invariant holds over every run. -/
theorem Reachable.inv (hsorted : ∀ c, (hashes c).Pairwise (· < ·)) {size : Nat}
    (h : Reachable hashes size σ) : Inv hashes σ := by
  induction h with
  | init => exact Inv.init hashes size
  | @step σ σ' call wakeup _ hallowed hstep ih =>
    cases call with
    | acquire c => exact step_acquire_inv (hsorted c) ih hallowed hstep
    | release c => exact step_release_inv (hsorted c) ih hallowed hstep

end Run

/-! ## What the invariant gives -/

/-- The safety of the latches in a state: two holders share no hash; a
command heads the queues of the hashes it holds and is queued once on the one
it waits on; the waits-for relation between distinct commands has no cycle;
an allowed call fails no assertion; a release wakes every command it puts at
the head of the hash it waits on; and a release that keeps hashes for a next
command hands each of them over to it. -/
structure LatchesSafe (σ : Sched) : Prop where
  exclusive : ∀ c d, c ≠ d → σ.phase c = .holding → σ.phase d = .holding →
    ∀ x ∈ hashes c, x ∉ hashes d
  owner : ∀ c, (σ.phase c).active = true →
    ∀ x ∈ (hashes c).take (σ.owned c), (σ.latches.queue x).head? = some c
  queuedOnce : ∀ c x, (σ.phase c).blocked = true → σ.blocking hashes c = some x →
    (σ.latches.queue x).count c = 1
  acyclic : ∀ c, ¬ Relation.TransGen (fun c d => WaitsFor hashes σ c d ∧ c ≠ d) c c
  noFailure : ∀ call, Allowed σ call → ∃ r, σ.step hashes call = .ok r
  noLostWakeup : ∀ c σ' wakeup, σ.phase c = .holding →
    σ.step hashes (.release c) = .ok (σ', wakeup) →
    ∀ d x, σ.blocking hashes d = some x → (σ'.latches.queue x).head? = some d →
      (σ.latches.queue x).head? ≠ some d → d ∈ wakeup
  keep : ∀ c n (next : Lock), σ.phase c = .holding → next.requiredHashes.Pairwise (· < ·) →
    (∀ x ∈ next.requiredHashes, x ∈ hashes c) →
    ∃ latches' wakeup, σ.latches.release (σ.lock hashes c) c (some (n, next)) =
        .ok (latches', wakeup) ∧
      (∀ x ∈ next.requiredHashes, (latches'.queue x).head? = some n) ∧
      ∀ d ∈ wakeup, ∃ x ∈ hashes c, x ∉ next.requiredHashes ∧ (σ.latches.queue x).tail.head? = some d

section Safety

variable {hashes : Nat → List Nat} {σ : Sched}

/-- Two commands holding all their latches share no hash. -/
theorem Inv.exclusive (hinv : Inv hashes σ) {c d : Nat} (hne : c ≠ d) (hc : σ.phase c = .holding)
    (hd : σ.phase d = .holding) {x : Nat} (hx : x ∈ hashes c) : x ∉ hashes d := fun hxd => by
  have h := head_of_holding hinv hc hx
  rw [head_of_holding hinv hd hxd, Option.some_inj] at h
  exact hne h.symm

/-- A command that waits is queued once on the hash it waits on. -/
theorem Inv.count_blocking (hinv : Inv hashes σ) {c x : Nat} (hblk : (σ.phase c).blocked = true)
    (hb : σ.blocking hashes c = some x) : (σ.latches.queue x).count c = 1 := by
  have hact : (σ.phase c).active = true := by
    cases hp : σ.phase c <;> simp_all [Phase.active, Phase.blocked]
  exact List.count_eq_one_of_mem (hinv.nodup x)
    ((hinv.mem x c).mpr (blocking_mem_queuedOn hact hb))

/-- A waits-for step climbs to a command waiting on a larger hash, or
reaches one that waits for nobody else. -/
theorem Inv.waitsFor_rank (hsorted : ∀ c, (hashes c).Pairwise (· < ·)) (hinv : Inv hashes σ)
    {c d : Nat} (h : WaitsFor hashes σ c d) :
    (σ.blocking hashes c).getD 0 < (σ.blocking hashes d).getD 0 ∨
      ∀ e, ¬ (WaitsFor hashes σ d e ∧ d ≠ e) := by
  obtain ⟨-, b, hb, hhead⟩ := h
  have hon : b ∈ σ.queuedOn hashes d := (hinv.mem b d).mp (List.mem_of_mem_head? hhead)
  have hact : (σ.phase d).active = true := by
    by_contra hna
    simp [Sched.queuedOn, hna] at hon
  rw [Sched.queuedOn, if_pos hact, mem_take_add_one_iff] at hon
  cases hp : σ.phase d with
  | fresh | released => simp [hp, Phase.active] at hact
  | holding =>
    right
    rintro e ⟨⟨hblk, -⟩, -⟩
    simp [hp, Phase.blocked] at hblk
  | woken =>
    -- `d` heads the queue of its own blocking hash: it waits only for itself
    right
    rintro e ⟨⟨-, b', hb', hhead'⟩, hde⟩
    rw [hinv.woken d b' hp hb', Option.some_inj] at hhead'
    exact hde hhead'
  | waiting =>
    left
    rcases hon with hown | hbd
    · obtain ⟨b', hb'⟩ : ∃ b', σ.blocking hashes d = some b' :=
        Option.isSome_iff_exists.mp (by simpa [Sched.blocking] using hinv.blocked d (by rw [hp]; rfl))
      rw [hb, hb']
      exact lt_of_mem_take (hsorted d) hown hb'
    · exact absurd hhead (hinv.waiting d b hp hbd)

/-- The waits-for relation between distinct commands has no cycle. -/
theorem Inv.waitsFor_acyclic (hsorted : ∀ c, (hashes c).Pairwise (· < ·)) (hinv : Inv hashes σ)
    (c : Nat) : ¬ Relation.TransGen (fun c d => WaitsFor hashes σ c d ∧ c ≠ d) c c :=
  not_transGen_self_of_rank (fun e => (σ.blocking hashes e).getD 0)
    (fun _ _ h => hinv.waitsFor_rank hsorted h.1) c

/-- The wake-up list of a `release` is exactly the commands it puts at the
head of the hash they wait on. -/
theorem mem_wakeup_iff {c : Nat} (hsorted : (hashes c).Pairwise (· < ·)) (hinv : Inv hashes σ)
    (hhold : σ.phase c = .holding) {σ' : Sched} {wakeup : List Nat}
    (h : σ.step hashes (.release c) = .ok (σ', wakeup)) (d : Nat) :
    d ∈ wakeup ↔ ∃ x, σ.blocking hashes d = some x ∧ (σ'.latches.queue x).head? = some d ∧
      (σ.latches.queue x).head? ≠ some d := by
  obtain ⟨σ'', hqueue, -, -, hrun⟩ := release_spec hsorted hinv hhold
  rw [hrun, Except.ok.injEq, Prod.mk.injEq] at h
  obtain ⟨rfl, rfl⟩ := h
  rw [hqueue]
  constructor
  · intro hd
    obtain ⟨hdc, -, x, hx, hb, hnext⟩ := mem_wakeupOf hinv hhold hd
    refine ⟨x, hb, by simp [Sched.releasedQueues, hx, hnext], ?_⟩
    rw [head_of_holding hinv hhold hx, Ne, Option.some_inj]
    exact fun he => hdc he.symm
  · rintro ⟨x, -, hnew, hold⟩
    unfold Sched.releasedQueues at hnew
    split at hnew
    · rename_i hx
      exact List.mem_filterMap.mpr ⟨x, hx, hnew⟩
    · exact absurd hnew hold

/-- The invariant gives the safety of the latches. -/
theorem Inv.safe (hsorted : ∀ c, (hashes c).Pairwise (· < ·)) (hinv : Inv hashes σ) :
    LatchesSafe hashes σ where
  exclusive _ _ hne hc hd _ hx := hinv.exclusive hne hc hd hx
  owner := hinv.owner
  queuedOnce _ _ hblk hb := hinv.count_blocking hblk hb
  acyclic := hinv.waitsFor_acyclic hsorted
  noFailure _ hallowed := step_ok hsorted hinv hallowed
  noLostWakeup c _ _ hhold h d x hb hnew hold :=
    (mem_wakeup_iff (hsorted c) hinv hhold h d).mpr ⟨x, hb, hnew, hold⟩
  keep c n next hhold hnext hsub := by
    obtain ⟨latches', hrun, hhead⟩ := release_keep (hsorted c) hinv hhold n hnext hsub
    refine ⟨latches', _, hrun, hhead, fun d hd => ?_⟩
    obtain ⟨x, hx, hwake⟩ := List.mem_filterMap.mp hd
    by_cases hk : x ∈ next.requiredHashes
    · simp [hk] at hwake
    · exact ⟨x, hx, hk, by simpa [hk] using hwake⟩

end Safety

end Protocol

/-! ## Locks built by `Lock::new` -/

/-- The hashes of each command's lock, as `Lock::new` builds them from its keys. -/
def lockHashes {K : Type} (hash : K → Nat) (keys : Nat → List K) (cid : Nat) : List Nat :=
  (Lock.new hash (keys cid)).requiredHashes

theorem lockHashes_sorted {K : Type} (hash : K → Nat) (keys : Nat → List K) (cid : Nat) :
    (lockHashes hash keys cid).Pairwise (· < ·) :=
  Lock.new_sorted hash (keys cid)

theorem latches_safe {K : Type} (hash : K → Nat) (keys : Nat → List K) (size : Nat) {σ : Sched}
    (hσ : Reachable (lockHashes hash keys) size σ) : LatchesSafe (lockHashes hash keys) σ :=
  (hσ.inv (lockHashes_sorted hash keys)).safe (lockHashes_sorted hash keys)

/-- Two commands on one key: the first holds its latch, the second waits. -/
theorem latches_safe_oneKey : ∃ σ, Reachable (lockHashes id fun _ => [5]) 1 σ ∧
    σ.phase 1 = .holding ∧ σ.phase 2 = .waiting ∧ LatchesSafe (lockHashes id fun _ => [5]) σ := by
  have h₁ := @Reachable.step (lockHashes id fun _ => [5]) 1 _ _ (.acquire 1) _ .init (.inl rfl) rfl
  have h₂ := @Reachable.step (lockHashes id fun _ => [5]) 1 _ _ (.acquire 2) _ h₁ (.inl rfl) rfl
  exact ⟨_, h₂, by decide +kernel, by decide +kernel, latches_safe id _ 1 h₂⟩

/-- Once the first command releases, the second is woken and heads the queue
of the hash it waits on until it calls `acquire` again: it waits for itself. -/
theorem woken_waits_for_self : ∃ σ, Reachable (lockHashes id fun _ => [5]) 1 σ ∧
    σ.phase 2 = .woken ∧ WaitsFor (lockHashes id fun _ => [5]) σ 2 2 := by
  have h₁ := @Reachable.step (lockHashes id fun _ => [5]) 1 _ _ (.acquire 1) _ .init (.inl rfl) rfl
  have h₂ := @Reachable.step (lockHashes id fun _ => [5]) 1 _ _ (.acquire 2) _ h₁ (.inl rfl) rfl
  obtain ⟨σ₃, hqueue, howned, hphase, hrun⟩ :=
    release_spec (lockHashes_sorted id _ 1) (h₂.inv (lockHashes_sorted id _)) (by decide +kernel)
  have hwoken : σ₃.phase 2 = .woken := by
    rw [hphase]
    decide +kernel
  refine ⟨σ₃, .step h₂ ?_ hrun, hwoken, by rw [hwoken]; rfl, 5, ?_, ?_⟩
  · show Sched.phase _ 1 = Phase.holding
    decide +kernel
  · rw [Sched.blocking, howned]
    decide +kernel
  · rw [hqueue]
    decide +kernel

end Tikv.Scheduler
