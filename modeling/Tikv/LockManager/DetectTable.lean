import Tikv.Lib.HashMap
import Tikv.Lib.GraphSearch

/-!
# The deadlock detector's table

`DetectTable` of `src/server/lock_manager/deadlock.rs`: for each waiting
transaction (`txn_ts`), the transactions it waits for (`lock_ts`), each
with the `Locks` it waits on. An edge `txn_ts → lock_ts` lives for `ttl`
after its last `detect`. Hash maps are association lists (`Tikv.Lib.HashMap`),
`Instant`s and `Duration`s are counts of milliseconds, and a panic of the
source is an `Except.error` carrying its message.

The search of `do_detect` is `GraphSearch.scan` in a worklist loop; its
loop and the one of `generate_wait_chain` carry a `fuel` argument, which the
proofs show is never used up (`Tikv.LockManager.Deadlock`).
-/
namespace Tikv.LockManager

/-- An edge of a wait chain (`WaitForEntry` of the deadlock protocol). -/
structure WaitForEntry where
  txn : Nat
  waitForTxn : Nat
  keyHash : Nat
  key : List UInt8
  resourceGroupTag : List UInt8
  deriving DecidableEq, Repr

/-- mirrors src/storage/lock_manager/mod.rs:32-35 (`LockDigest`) -/
structure LockDigest where
  ts : Nat
  hash : Nat
  deriving DecidableEq, Repr

/-- mirrors src/server/lock_manager/deadlock.rs:53-60 (`Locks`): the locks a
transaction waits on, all held by the transaction `ts`; `keys` pairs each
lock's hash with one of its keys. -/
structure Locks where
  ts : Nat
  keys : List (Nat × List UInt8)
  resourceGroupTag : List UInt8
  lastDetectTime : Nat
  deriving DecidableEq, Repr

namespace Locks

/-- mirrors src/server/lock_manager/deadlock.rs:64-78 (`Locks::new`) -/
def new (ts hash : Nat) (key resourceGroupTag : List UInt8) (lastDetectTime : Nat) : Locks :=
  ⟨ts, [(hash, key)], resourceGroupTag, lastDetectTime⟩

/-- mirrors src/server/lock_manager/deadlock.rs:80-86 (`Locks::push`) -/
def push (locks : Locks) (lockHash : Nat) (key : List UInt8) (now : Nat) : Locks :=
  { locks with
    keys := if locks.keys.any (·.1 == lockHash) then locks.keys else locks.keys ++ [(lockHash, key)]
    lastDetectTime := now }

/-- mirrors src/server/lock_manager/deadlock.rs:88-94 (`Locks::remove`): the
locks left, and whether they are empty. -/
def remove (locks : Locks) (lockHash : Nat) : Locks × Bool :=
  let keys :=
    match locks.keys.findIdx? (·.1 == lockHash) with
    | some idx => locks.keys.eraseIdx idx
    | none => locks.keys
  ({ locks with keys := keys }, keys.isEmpty)

/-- mirrors src/server/lock_manager/deadlock.rs:96-99 (`Locks::is_expired`):
`saturating_duration_since` is truncated subtraction. -/
def isExpired (locks : Locks) (now ttl : Nat) : Bool :=
  decide (ttl ≤ now - locks.lastDetectTime)

/-- `self.keys[0]`, which panics on no keys. -/
def firstKey (locks : Locks) : Except String (Nat × List UInt8) :=
  match locks.keys with
  | [] => .error "index out of bounds: the len is 0 but the index is 0"
  | k :: _ => .ok k

/-- mirrors src/server/lock_manager/deadlock.rs:101-110 (`Locks::to_wait_for_entry`) -/
def toWaitForEntry (locks : Locks) (waiterTs : Nat) : Except String WaitForEntry := do
  let (hash, key) ← locks.firstKey
  pure ⟨waiterTs, locks.ts, hash, key, locks.resourceGroupTag⟩

end Locks

/-- `HashMap<TimeStamp, Locks>`: the transactions one transaction waits for. -/
abbrev WaitFor := AList (fun _ : Nat => Locks)

/-- mirrors src/server/lock_manager/deadlock.rs:113-131 (`DetectTable`) -/
structure DetectTable where
  waitForMap : AList (fun _ : Nat => WaitFor)
  ttl : Nat
  lastActiveExpire : Nat
  now : Nat

/-- deadlock.rs:342 (`ACTIVE_EXPIRE_THRESHOLD`) -/
def ACTIVE_EXPIRE_THRESHOLD : Nat := 100000

/-- deadlock.rs:344 (`ACTIVE_EXPIRE_INTERVAL`, one hour) -/
def ACTIVE_EXPIRE_INTERVAL : Nat := 3600 * 1000

namespace DetectTable

/-- mirrors src/server/lock_manager/deadlock.rs:133-141 (`DetectTable::new`) -/
def new (ttl now : Nat) : DetectTable :=
  ⟨∅, ttl, now, now⟩

/-- The edges of a waiter that have not expired. -/
def unexpired (table : DetectTable) (waitFor : WaitFor) : WaitFor :=
  waitFor.retain fun _ locks => !locks.isExpired table.now table.ttl

/-- mirrors src/server/lock_manager/deadlock.rs:346-361 (`active_expire`) -/
def activeExpire (table : DetectTable) : DetectTable :=
  if ACTIVE_EXPIRE_THRESHOLD ≤ table.waitForMap.keys.length ∧
      ACTIVE_EXPIRE_INTERVAL ≤ table.now - table.lastActiveExpire then
    { table with
      waitForMap := (table.waitForMap.mapVal fun _ waitFor => table.unexpired waitFor).retain
        fun _ waitFor => !waitFor.entries.isEmpty
      lastActiveExpire := table.now }
  else table

/-- mirrors src/server/lock_manager/deadlock.rs:267-286 (`register_if_existed`):
the table after the refresh, if the edge exists. -/
def registerIfExisted (table : DetectTable) (txnTs lockTs lockHash : Nat)
    (key resourceGroupTag : List UInt8) : Option DetectTable := do
  let waitFor ← table.waitForMap.lookup txnTs
  let locks ← waitFor.lookup lockTs
  let locks := { locks.push lockHash key table.now with resourceGroupTag := resourceGroupTag }
  pure { table with waitForMap := table.waitForMap.insert txnTs (waitFor.insert lockTs locks) }

/-- mirrors src/server/lock_manager/deadlock.rs:288-307 (`register`) -/
def register (table : DetectTable) (txnTs lockTs lockHash : Nat)
    (key resourceGroupTag : List UInt8) : Except String DetectTable :=
  let waitFor := (table.waitForMap.lookup txnTs).getD ∅
  if lockTs ∈ waitFor then .error "assertion failed: !wait_for.contains_key(&lock_ts)"
  else
    let locks := Locks.new lockTs lockHash key resourceGroupTag table.now
    .ok { table with waitForMap := table.waitForMap.insert txnTs (waitFor.insert locks.ts locks) }

/-- The loop of `generate_wait_chain` (deadlock.rs:239-262), `fuel` bounding
its rounds: from `lockTs` back along the predecessors to `start`, one entry
per edge, reversed at the end. -/
def generateWaitChainGo (table : DetectTable) (start : Nat) (preds : List (Nat × Nat)) :
    Nat → Nat → List WaitForEntry → Except String (List WaitForEntry)
  | 0, _, _ => .error "generate_wait_chain: out of fuel"
  | fuel + 1, lockTs, waitChain =>
    match preds.lookup lockTs with
    | none => .error "called `Option::unwrap()` on a `None` value"
    | some waiterTs =>
      if waiterTs = 0 then
        if lockTs = start then .ok waitChain.reverse
        else .error "assertion `left == right` failed"
      else
        match (table.waitForMap.lookup waiterTs).bind (·.lookup lockTs) with
        | none => .error "called `Option::unwrap()` on a `None` value"
        | some locks => do
          let entry ← locks.toWaitForEntry waiterTs
          generateWaitChainGo table start preds fuel waiterTs (waitChain ++ [entry])

/-- mirrors src/server/lock_manager/deadlock.rs:232-265 (`generate_wait_chain`) -/
def generateWaitChain (table : DetectTable) (start stop : Nat) (preds : List (Nat × Nat)) :
    Except String (List WaitForEntry) :=
  generateWaitChainGo table start preds (preds.length + 1) stop []

/-- The loop of `do_detect` (deadlock.rs:192-222), `fuel` bounding its
rounds: pop a transaction, drop its expired edges, and scan the others. -/
def doDetectLoop (txnTs waitForTs : Nat) :
    Nat → DetectTable → List Nat → List (Nat × Nat) →
      Except String (DetectTable × Option (Nat × List WaitForEntry))
  | 0, _, _, _ => .error "do_detect: out of fuel"
  | _ + 1, table, [], _ => .ok (table, none)
  | fuel + 1, table, currTs :: stack, pushed =>
    match table.waitForMap.lookup currTs with
    | none => doDetectLoop txnTs waitForTs fuel table stack pushed
    | some waitFor =>
      let waitFor := table.unexpired waitFor
      if waitFor.entries.isEmpty then
        doDetectLoop txnTs waitForTs fuel
          { table with waitForMap := table.waitForMap.erase currTs } stack pushed
      else
        let table := { table with waitForMap := table.waitForMap.insert currTs waitFor }
        match GraphSearch.scan txnTs currTs waitFor.entries stack pushed with
        | .inl (locks, pushed) => do
          let (hash, _) ← locks.firstKey
          let lastEntry ← locks.toWaitForEntry currTs
          let waitChain ← table.generateWaitChain waitForTs currTs pushed
          pure (table, some (hash, waitChain ++ [lastEntry]))
        | .inr (stack, pushed) => doDetectLoop txnTs waitForTs fuel table stack pushed

/-- Every `lock_ts` stored in the table. -/
def targets (table : DetectTable) : List Nat :=
  table.waitForMap.entries.flatMap fun e => e.2.keys

/-- mirrors src/server/lock_manager/deadlock.rs:178-223 (`do_detect`) -/
def doDetect (table : DetectTable) (txnTs waitForTs : Nat) :
    Except String (DetectTable × Option (Nat × List WaitForEntry)) :=
  doDetectLoop txnTs waitForTs (table.targets.length + 2) table [waitForTs] [(waitForTs, 0)]

/-- mirrors src/server/lock_manager/deadlock.rs:149-175 (`detect`), at the
clock value `now` -/
def detect (table : DetectTable) (now txnTs lockTs lockHash : Nat)
    (lockKey resourceGroupTag : List UInt8) :
    Except String (DetectTable × Option (Nat × List WaitForEntry)) := do
  let table := { table with now := now }.activeExpire
  match table.registerIfExisted txnTs lockTs lockHash lockKey resourceGroupTag with
  | some table => pure (table, none)
  | none =>
    let (table, r) ← table.doDetect txnTs lockTs
    match r with
    | some r => pure (table, some r)
    | none => pure (← table.register txnTs lockTs lockHash lockKey resourceGroupTag, none)

/-- mirrors src/server/lock_manager/deadlock.rs:310-323 (`clean_up_wait_for`) -/
def cleanUpWaitFor (table : DetectTable) (txnTs : Nat) (lockDigest : LockDigest) : DetectTable :=
  match table.waitForMap.lookup txnTs with
  | none => table
  | some waitFor =>
    match waitFor.lookup lockDigest.ts with
    | none => table
    | some locks =>
      let (locks, empty) := locks.remove lockDigest.hash
      if empty then
        let waitFor := waitFor.erase lockDigest.ts
        if waitFor.entries.isEmpty then { table with waitForMap := table.waitForMap.erase txnTs }
        else { table with waitForMap := table.waitForMap.insert txnTs waitFor }
      else
        { table with waitForMap := table.waitForMap.insert txnTs (waitFor.insert lockDigest.ts locks) }

/-- mirrors src/server/lock_manager/deadlock.rs:325-329 (`clean_up`) -/
def cleanUp (table : DetectTable) (txnTs : Nat) : DetectTable :=
  { table with waitForMap := table.waitForMap.erase txnTs }

/-- mirrors src/server/lock_manager/deadlock.rs:331-334 (`clear`) -/
def clear (table : DetectTable) : DetectTable :=
  { table with waitForMap := ∅ }

/-- mirrors src/server/lock_manager/deadlock.rs:336-339 (`reset_ttl`) -/
def resetTtl (table : DetectTable) (ttl : Nat) : DetectTable :=
  { table with ttl := ttl }

end DetectTable

/-- A call on the table. -/
inductive Call where
  | detect (now txnTs lockTs lockHash : Nat) (key resourceGroupTag : List UInt8)
  | cleanUpWaitFor (txnTs : Nat) (lockDigest : LockDigest)
  | cleanUp (txnTs : Nat)
  | clear
  | resetTtl (ttl : Nat)

/-- A call, and what `detect` returns. -/
def DetectTable.step (table : DetectTable) :
    Call → Except String (DetectTable × Option (Nat × List WaitForEntry))
  | .detect now txnTs lockTs lockHash key tag => table.detect now txnTs lockTs lockHash key tag
  | .cleanUpWaitFor txnTs lockDigest => .ok (table.cleanUpWaitFor txnTs lockDigest, none)
  | .cleanUp txnTs => .ok (table.cleanUp txnTs, none)
  | .clear => .ok (table.clear, none)
  | .resetTtl ttl => .ok (table.resetTtl ttl, none)

end Tikv.LockManager
