import Mathlib.Data.List.Nodup
import Mathlib.Data.List.Dedup
import Tikv.Lib.KeyRange
import Tikv.Lib.ExceptState
import Tikv.Codec.Number

/-!
# Region ranges through splits and merges

Each region serves the keys `[start_key, end_key)`, an empty `end_key` being
no upper bound (`check_key_in_region`). The region states sit in `CF_RAFT`
under the region id. `exec_batch_split` cuts a region at increasing split
keys: the derived region keeps the id and the left or the right end, the new
regions take the ids of the requests, and all take the version raised by the
number of new regions. `exec_prepare_merge` marks a source region `Merging`,
and `exec_commit_merge` extends the target by the source, on the side where
their keys meet, at a version above both, and leaves the source `Tombstone`.

A split also consults `pending_create_peers`, the peers the store is
creating. A new region the store is creating for another peer, or for its own
peer by an earlier split, is not written; one it is creating for the split's
own peer from a raft message is taken over; a new region whose state the
engine already holds is not written either, and the split panics if it was
taking that region over.

The key space stays partitioned by the live regions as long as the new
regions of a split are fresh (`SplitFresh`: PD allocates their ids, and the
store is creating no other peer of them) and a merge joins siblings: the
regions a command touches hold every key as often after as before
(`KeyRange.tiling_of_local`). A split that leaves a new region unwritten
still shrinks the derived region, and loses the keys between.

Results:
* `batchSplit_regions`: the regions an accepted batch split answers with,
  their ranges, epochs, ids and peers, in the order of the response, and
  when the split goes through.
* `applyCommand_inv`: an admissible command keeps the live regions a
  partition of the key space.
* `applyCommand_versionsRaised`: a region whose range changes gets a version
  above those of the regions it comes from.
* `regions_partition`: both, over any run from a partitioned store.
* `batchSplit_skipped_region_unowned`: a taken id, or another peer being
  created, loses keys.
-/
namespace Tikv.Raftstore
open Tikv.Codec KeyRange

/-- `metapb::Peer`, the fields a split reads. -/
structure Peer where
  id : Nat
  storeId : Nat
  deriving DecidableEq, Repr

/-- `metapb::RegionEpoch` -/
structure RegionEpoch where
  confVer : Nat
  version : Nat
  deriving DecidableEq, Repr

/-- `metapb::Region`; an empty `endKey` is no upper bound. -/
structure Region where
  id : Nat
  startKey : Bytes
  endKey : Bytes
  regionEpoch : RegionEpoch
  peers : List Peer
  deriving DecidableEq, Repr

/-- `raft_serverpb::PeerState` -/
inductive PeerState where
  | normal
  | applying
  | tombstone
  | merging
  | unavailable
  deriving DecidableEq, Repr

/-- `raft_serverpb::RegionLocalState`, without the merge state. -/
structure RegionLocalState where
  state : PeerState
  region : Region
  deriving DecidableEq, Repr

/-- The region states in `CF_RAFT`, by region id (`keys::region_state_key`). -/
abbrev Store := Nat → Option RegionLocalState

/-- mirrors components/raftstore/src/store/peer_storage.rs:1217-1238
(`write_peer_state`) -/
def Store.write (s : Store) (state : PeerState) (region : Region) : Store :=
  fun id => if id = region.id then some ⟨state, region⟩ else s id

/-- `SplitRequest`, the fields a batch split reads. -/
structure SplitRequest where
  splitKey : Bytes
  newRegionId : Nat
  newPeerIds : List Nat
  deriving DecidableEq, Repr

/-- `BatchSplitRequest`; `share_source_region_size` only sizes the new
regions and is left out. -/
structure BatchSplitRequest where
  requests : List SplitRequest
  rightDerive : Bool
  deriving DecidableEq, Repr

/-- The errors these commands return; `panic` stops the apply. -/
inductive Error where
  | other (msg : String)
  | invalidSplitRequest (requests : List SplitRequest)
  | invalidNewPeerIdCount (need : List Peer) (got : List Nat)
  | keyNotInRegion (key : Bytes) (region : Region)
  | regionNotFound (regionId : Nat)
  | panic (msg : String)
  deriving DecidableEq, Repr

/-! ## Keys -/

/-- mirrors components/tikv_util/src/store/region.rs:19-24 (`check_key_in_region`) -/
def checkKeyInRegion (key : Bytes) (region : Region) : Bool :=
  decide (key ≥ region.startKey) && (region.endKey.isEmpty || decide (key < region.endKey))

/-- mirrors components/tikv_util/src/store/region.rs:5-10
(`check_key_in_region_exclusive`) -/
def checkKeyInRegionExclusive (key : Bytes) (region : Region) : Bool :=
  decide (region.startKey < key) && (decide (key < region.endKey) || region.endKey.isEmpty)

/-- `DATA_PREFIX` (components/keys/src/lib.rs:28) -/
def DATA_PREFIX : UInt8 := 0x7a

/-- `DATA_PREFIX_KEY` (components/keys/src/lib.rs:29) -/
def DATA_PREFIX_KEY : Bytes := [DATA_PREFIX]

/-- `DATA_MAX_KEY` (components/keys/src/lib.rs:31) -/
def DATA_MAX_KEY : Bytes := [DATA_PREFIX + 1]

/-- mirrors components/keys/src/lib.rs:206-211 (`data_key`) -/
def dataKey (key : Bytes) : Bytes :=
  DATA_PREFIX_KEY ++ key

/-- mirrors components/keys/src/lib.rs:244-251 (`data_end_key`) -/
def dataEndKey (key : Bytes) : Bytes :=
  if key.isEmpty then DATA_MAX_KEY else dataKey key

/-- mirrors components/keys/src/lib.rs:228-233 (`enc_start_key`); the
assertion on the peers is a panic. -/
def encStartKey (region : Region) : Except Error Bytes :=
  if region.peers.isEmpty then .error (.panic "assertion failed: !region.get_peers().is_empty()")
  else .ok (dataKey region.startKey)

/-- mirrors components/keys/src/lib.rs:236-241 (`enc_end_key`) -/
def encEndKey (region : Region) : Except Error Bytes :=
  if region.peers.isEmpty then .error (.panic "assertion failed: !region.get_peers().is_empty()")
  else .ok (dataEndKey region.endKey)

/-- mirrors components/raftstore/src/store/util.rs:835-846 (`is_sibling_regions`) -/
def isSiblingRegions (lhs rhs : Region) : Bool :=
  if lhs.id = rhs.id then false
  else if lhs.startKey = rhs.endKey ∧ ¬ rhs.endKey.isEmpty then true
  else if lhs.endKey = rhs.startKey ∧ ¬ lhs.endKey.isEmpty then true
  else false

/-! ## Batch split -/

/-- The loop of `validate_batch_split` (apply.rs:2096-2117): the split keys
are non-empty and increasing from `lastKey`, the peer counts match, and the
last key lies strictly inside the region. -/
def validateBatchSplitGo (splitReqs : List SplitRequest) (region : Region) :
    Bytes → List SplitRequest → Except Error Unit
  | lastKey, [] =>
    if checkKeyInRegionExclusive lastKey region then .ok ()
    else .error (.keyNotInRegion lastKey region)
  | lastKey, req :: reqs =>
    if req.splitKey.isEmpty then .error (.other "missing split key")
    else if req.splitKey ≤ lastKey then
      .error (.invalidSplitRequest splitReqs)
    else if req.newPeerIds.length ≠ region.peers.length then
      .error (.invalidNewPeerIdCount region.peers req.newPeerIds)
    else validateBatchSplitGo splitReqs region req.splitKey reqs

/-- mirrors components/raftstore/src/store/fsm/apply.rs:2089-2120
(`validate_batch_split`) -/
def validateBatchSplit (req : BatchSplitRequest) (region : Region) : Except Error Unit :=
  if req.requests.isEmpty then .error (.other "missing split requests")
  else validateBatchSplitGo req.requests region region.startKey req.requests

/-- The peers of a new region: the derived region's, with the new peer ids
(`iter_mut().zip(..)`). -/
def setPeerIds : List Peer → List Nat → List Peer
  | p :: ps, i :: is => { p with id := i } :: setPeerIds ps is
  | ps, _ => ps

/-- The loop of `exec_batch_split` (apply.rs:2653-2675): each new region
takes its start key off the front of `keys` and ends at the next one. The
deque holds one key more than the requests left, so neither `unwrap` fails.
Returns the new regions and the keys left. -/
def splitNewRegions (derived : Region) : List SplitRequest → List Bytes → List Region × List Bytes
  | [], keys => ([], keys)
  | req :: reqs, keys =>
    let newRegion : Region :=
      { id := req.newRegionId
        startKey := keys.headD []
        endKey := keys.tail.headD []
        regionEpoch := derived.regionEpoch
        peers := setPeerIds derived.peers req.newPeerIds }
    let rest := splitNewRegions derived reqs keys.tail
    (newRegion :: rest.1, rest.2)

/-- The regions of `exec_batch_split` (apply.rs:2630-2680): the derived region
and the list of all regions, in the order of the response. -/
def batchSplitRegions (region : Region) (req : BatchSplitRequest) : Region × List Region :=
  let keys := req.requests.map (·.splitKey)
  let derived := { region with
    regionEpoch := { region.regionEpoch with
      version := region.regionEpoch.version + req.requests.length } }
  if req.rightDerive then
    let split := splitNewRegions derived req.requests (derived.startKey :: keys)
    let derived := { derived with startKey := split.2.headD [] }
    (derived, split.1 ++ [derived])
  else
    let derived := { derived with endKey := keys.headD [] }
    let split := splitNewRegions derived req.requests (keys ++ [region.endKey])
    (derived, derived :: split.1)

/-- mirrors components/tikv_util/src/store/peer.rs:5-10 (`find_peer`) -/
def findPeer (region : Region) (storeId : Nat) : Option Peer :=
  region.peers.find? (·.storeId == storeId)

/-- `NewSplitPeer`: the peer a split creates on this store for a new region,
and why that region must not be written, if it must not. -/
structure NewSplitPeer where
  peerId : Nat
  result : Option String
  deriving DecidableEq, Repr

/-- `pending_create_peers`: the peers this store is creating, by region id,
each with whether a split creates it. A peer that a raft message creates is
held with `false` until it has applied its snapshot. -/
abbrev PendingCreatePeers := Nat → Option (Nat × Bool)

/-- The parts of `ApplyContext` the admin commands read and write: the
store's id, the region states in the engine and `pending_create_peers`. -/
structure ApplyContext where
  storeId : Nat
  engine : Store
  pendingCreatePeers : PendingCreatePeers

/-- The new regions of a split, in request order: the regions of the
response but the derived one. -/
def newRegions (region : Region) (req : BatchSplitRequest) : List Region :=
  if req.rightDerive then (batchSplitRegions region req).2.dropLast
  else (batchSplitRegions region req).2.tail

/-- The map `new_split_regions` (apply.rs:2653-2675): each new region's id to
the region's peer on this store (`find_peer(..).unwrap()`); a later region of
the same id replaces the entry. -/
def insertNewSplitPeers (storeId : Nat) :
    (Nat → Option NewSplitPeer) → List Region → Except Error (Nat → Option NewSplitPeer)
  | m, [] => .ok m
  | m, r :: rs =>
    match findPeer r storeId with
    | none => .error (.panic "called Option::unwrap() on a None value")
    | some peer => insertNewSplitPeers storeId (Function.update m r.id (some ⟨peer.id, none⟩)) rs

/-- What `exec_batch_split` keeps between its loops: `new_split_regions`,
`replace_regions` and `pending_create_peers`. -/
structure SplitPeers where
  newSplitRegions : Nat → Option NewSplitPeer
  replaceRegions : List Nat
  pendingCreatePeers : PendingCreatePeers

/-- One turn of the loop over `pending_create_peers` (apply.rs:2687-2706). A
region the store is creating for another peer, or for this peer by a split,
is marked not to be written; one it is creating for this peer from a raft
message is replaced; the entry of a replaced or absent region becomes the
split's. -/
def markPendingCreatePeer (acc : SplitPeers) (regionId : Nat) : SplitPeers :=
  match acc.newSplitRegions regionId with
  -- the loop visits the map's own ids
  | none => acc
  | some p =>
    match acc.pendingCreatePeers regionId with
    | some v =>
      if v ≠ (p.peerId, false) then
        { acc with
          newSplitRegions := Function.update acc.newSplitRegions regionId (some { p with
            result := some ("status (" ++ toString v.1 ++ ", " ++ toString v.2 ++ ") is not expected") }) }
      else
        { acc with
          replaceRegions := regionId :: acc.replaceRegions
          pendingCreatePeers := Function.update acc.pendingCreatePeers regionId (some (p.peerId, true)) }
    | none =>
      { acc with
        pendingCreatePeers := Function.update acc.pendingCreatePeers regionId (some (p.peerId, true)) }

/-- One turn of the loop over the engine's region states (apply.rs:2712-2742):
a new region whose state the engine already holds panics if it is being
replaced, and is otherwise marked not to be written and noted with its peer. -/
def checkRegionState (engine : Store) (acc : SplitPeers × List (Nat × Nat)) (regionId : Nat) :
    Except Error (SplitPeers × List (Nat × Nat)) :=
  match acc.1.newSplitRegions regionId, engine regionId with
  | some p, some _ =>
    if regionId ∈ acc.1.replaceRegions then
      .error (.panic "failed to replace region because state alread exist in kv engine")
    else
      .ok ({ acc.1 with
          newSplitRegions := Function.update acc.1.newSplitRegions regionId (some { p with
            result := some "state exist in kv engine" }) },
        acc.2 ++ [(regionId, p.peerId)])
  | _, _ => .ok acc

/-- `assert_eq!(pending_create_peers.remove(region_id), Some((*peer_id, true)))`
for each noted region (apply.rs:2744-2753). -/
def removeAlreadyExist : PendingCreatePeers → List (Nat × Nat) → Except Error PendingCreatePeers
  | pending, [] => .ok pending
  | pending, (regionId, peerId) :: rest =>
    if pending regionId = some (peerId, true) then
      removeAlreadyExist (Function.update pending regionId none) rest
    else .error (.panic "assertion failed: left == right")

/-- One write of the loop of `exec_batch_split` (apply.rs:2755-2778): a region
other than the derived one, unless it is marked not to be written ("new
region from splitting already exists"). Every new region has its entry in
`new_split_regions`, so the `unwrap` there holds. -/
def writeNewRegion (newSplitRegions : Nat → Option NewSplitPeer) (derived : Region) (acc : Store)
    (r : Region) : Store :=
  if r.id = derived.id ∨ ((newSplitRegions r.id).bind (·.result)).isSome then acc
  else acc.write .normal r

/-- The writes of `exec_batch_split` (apply.rs:2755-2783): each new region not
marked, then the derived region. -/
def writeSplit (s : Store) (newSplitRegions : Nat → Option NewSplitPeer) (derived : Region)
    (regions : List Region) : Store :=
  (regions.foldl (writeNewRegion newSplitRegions derived) s).write .normal derived

/-- mirrors components/raftstore/src/store/fsm/apply.rs:2593-2783
(`exec_batch_split`): the regions of its response and its writes to `CF_RAFT`
and `pending_create_peers`. `new_split_regions` is a hash map, so its loops
visit each id once, in an order of their own; a turn reads and writes its
own id only, so the order only picks which panic comes first. -/
def execBatchSplit (ctx : ApplyContext) (region : Region) (req : BatchSplitRequest) :
    Except Error (List Region × ApplyContext) := do
  validateBatchSplit req region
  let split := batchSplitRegions region req
  let news := newRegions region req
  let newSplitRegions ← insertNewSplitPeers ctx.storeId (fun _ => none) news
  let ids := (news.map (·.id)).dedup
  let marked := ids.foldl markPendingCreatePeer ⟨newSplitRegions, [], ctx.pendingCreatePeers⟩
  let checked ← ids.foldlM (checkRegionState ctx.engine) (marked, [])
  let pending ← removeAlreadyExist checked.1.pendingCreatePeers checked.2
  pure (split.2, { ctx with
    engine := writeSplit ctx.engine checked.1.newSplitRegions split.1 split.2
    pendingCreatePeers := pending })

/-! ## Merge -/

/-- mirrors components/raftstore/src/store/fsm/apply.rs:2804-2866
(`exec_prepare_merge`), its write: the region with both epoch fields raised,
`Merging`. The log index check and the merge state are left out. -/
def execPrepareMerge (s : Store) (region : Region) : Store :=
  s.write .merging { region with
    regionEpoch := { confVer := region.regionEpoch.confVer + 1
                     version := region.regionEpoch.version + 1 } }

/-- The target of a merge (apply.rs:2974-2985): at a version above both, and
with the source's keys on the side where the two meet, compared as encoded
keys. -/
def mergeTarget (region sourceRegion : Region) : Except Error Region := do
  let version := max sourceRegion.regionEpoch.version region.regionEpoch.version + 1
  let region := { region with regionEpoch := { region.regionEpoch with version := version } }
  let endKey ← encEndKey region
  let startKey ← encStartKey sourceRegion
  pure (if endKey = startKey then { region with endKey := sourceRegion.endKey }
    else { region with startKey := sourceRegion.startKey })

/-- mirrors components/raftstore/src/store/fsm/apply.rs:2950-2999
(`exec_commit_merge`) once the source has caught up: the source's state must
be `Merging` and equal the request's; the target is written `Normal`, the
source `Tombstone`. -/
def execCommitMerge (s : Store) (region sourceRegion : Region) : Except Error Store :=
  match s sourceRegion.id with
  | none => .error (.panic "failed to get regions state")
  | some state =>
    if state.state ≠ .merging then .error (.panic "unexpected state of merging region")
    else if sourceRegion ≠ state.region then .error (.panic "source_region not match exist region")
    else do
      let region ← mergeTarget region sourceRegion
      pure ((s.write .normal region).write .tombstone sourceRegion)

/-! ## Commands -/

/-- The admin commands a region applies. -/
inductive Command where
  | batchSplit (regionId : Nat) (req : BatchSplitRequest)
  | prepareMerge (regionId : Nat)
  | commitMerge (regionId : Nat) (source : Region)
  deriving DecidableEq, Repr

/-- The region a command is applied to. -/
def Command.regionId : Command → Nat
  | .batchSplit regionId _ => regionId
  | .prepareMerge regionId => regionId
  | .commitMerge regionId _ => regionId

/-- The region of a live apply delegate: a region that is not `Tombstone`. -/
def delegate (s : Store) (regionId : Nat) : Option Region :=
  match s regionId with
  | some st => if st.state = .tombstone then none else some st.region
  | none => none

/-- mirrors components/raftstore/src/store/fsm/apply.rs:1732-1778
(`exec_admin_cmd`), for the commands modelled. -/
def execAdminCmd (ctx : ApplyContext) (region : Region) : Command → Except Error ApplyContext
  | .batchSplit _ req => Prod.snd <$> execBatchSplit ctx region req
  | .prepareMerge _ => .ok { ctx with engine := execPrepareMerge ctx.engine region }
  | .commitMerge _ source =>
    (fun engine => { ctx with engine := engine }) <$> execCommitMerge ctx.engine region source

/-- A command applied by the delegate of its region. -/
def applyCommand (ctx : ApplyContext) (cmd : Command) : Except Error ApplyContext :=
  match delegate ctx.engine cmd.regionId with
  | none => .error (.regionNotFound cmd.regionId)
  | some region => execAdminCmd ctx region cmd

/-! ## Ranges -/

/-- The bound a region's `end_key` sets: none when it is empty. -/
def endBound (endKey : Bytes) : Option Bytes :=
  if endKey.isEmpty then none else some endKey

/-- The keys of a region as a range. -/
def Region.range (region : Region) : Bytes × Option Bytes :=
  (region.startKey, endBound region.endKey)

@[simp] theorem endBound_of_ne_nil {key : Bytes} (h : key ≠ []) : endBound key = some key := by
  simp [endBound, h]

theorem checkKeyInRegion_eq_holds (key : Bytes) (region : Region) :
    checkKeyInRegion key region = holds key region.range := by
  unfold checkKeyInRegion holds Region.range endBound
  by_cases h : region.endKey.isEmpty <;> simp [h, Mem, Below]

theorem boundLe_of_checkKeyInRegionExclusive {key : Bytes} {region : Region}
    (h : checkKeyInRegionExclusive key region = true) : BoundLe key (endBound region.endKey) := by
  unfold checkKeyInRegionExclusive at h
  by_cases he : region.endKey.isEmpty
  · simp [endBound, he, BoundLe]
  · simp only [he, Bool.or_false, Bool.and_eq_true, decide_eq_true_eq] at h
    simpa [endBound, he, BoundLe] using Std.le_of_lt h.2

/-- The keys of `data_end_key` and `data_key` meet only at a non-empty key:
the empty end key is `DATA_MAX_KEY`, above every data key. -/
theorem dataEndKey_eq_dataKey_iff (endKey startKey : Bytes) :
    dataEndKey endKey = dataKey startKey ↔ endKey ≠ [] ∧ endKey = startKey := by
  unfold dataEndKey dataKey DATA_MAX_KEY DATA_PREFIX_KEY DATA_PREFIX
  by_cases h : endKey = [] <;> simp [h]

/-! ## Batch split: the regions -/

/-- What `validate_batch_split`'s loop accepts: split keys non-empty and
rising from `lastKey`, all of them up to the region's end. -/
theorem validateBatchSplitGo_ok {splitReqs : List SplitRequest} {region : Region}
    {lastKey : Bytes} {reqs : List SplitRequest}
    (h : validateBatchSplitGo splitReqs region lastKey reqs = .ok ()) :
    List.IsChain (· ≤ ·) (lastKey :: reqs.map (·.splitKey)) ∧
      BoundLe lastKey (endBound region.endKey) ∧
      ∀ r ∈ reqs, r.splitKey ≠ [] ∧ BoundLe r.splitKey (endBound region.endKey) := by
  induction reqs generalizing lastKey with
  | nil =>
    unfold validateBatchSplitGo at h
    split at h
    · exact ⟨.singleton lastKey, boundLe_of_checkKeyInRegionExclusive ‹_›,
        fun r hr => absurd hr List.not_mem_nil⟩
    · cases h
  | cons req reqs ih =>
    unfold validateBatchSplitGo at h
    split at h
    · cases h
    rename_i hne
    split at h
    · cases h
    rename_i hgt
    split at h
    · cases h
    obtain ⟨hchain, hlast, hrest⟩ := ih h
    have hle : lastKey ≤ req.splitKey := Std.le_of_lt (Std.not_le.mp hgt)
    refine ⟨List.isChain_cons_cons.mpr ⟨hle, hchain⟩, boundLe_of_le_of_boundLe hle hlast, ?_⟩
    intro r hr
    rcases List.mem_cons.mp hr with rfl | hr
    · exact ⟨by simpa using hne, hlast⟩
    · exact hrest r hr

theorem validateBatchSplit_ok {req : BatchSplitRequest} {region : Region}
    (h : validateBatchSplit req region = .ok ()) :
    req.requests ≠ [] ∧
      List.IsChain (· ≤ ·) (region.startKey :: req.requests.map (·.splitKey)) ∧
      BoundLe region.startKey (endBound region.endKey) ∧
      ∀ r ∈ req.requests, r.splitKey ≠ [] ∧ BoundLe r.splitKey (endBound region.endKey) := by
  unfold validateBatchSplit at h
  split at h
  · cases h
  rename_i hne
  exact ⟨by simpa using hne, validateBatchSplitGo_ok h⟩

/-- The loop of `exec_batch_split` on keys `a, ks, e` with one request per
range: the ranges are the pieces of `[a, e)` cut at `ks`, under the
requests' ids and the derived region's epoch, and `e` is left over. -/
theorem splitNewRegions_spec (derived : Region) {reqs : List SplitRequest} {a e : Bytes}
    {ks : List Bytes} (hlen : reqs.length = ks.length + 1) (hks : ∀ k ∈ ks, k ≠ []) :
    (splitNewRegions derived reqs (a :: ks ++ [e])).1.map Region.range =
        pieces a ks (endBound e) ∧
      (splitNewRegions derived reqs (a :: ks ++ [e])).2 = [e] ∧
      (splitNewRegions derived reqs (a :: ks ++ [e])).1.map (·.id) = reqs.map (·.newRegionId) ∧
      ∀ r ∈ (splitNewRegions derived reqs (a :: ks ++ [e])).1,
        r.regionEpoch = derived.regionEpoch := by
  induction ks generalizing reqs a with
  | nil =>
    obtain ⟨req, rfl⟩ := List.length_eq_one_iff.mp hlen
    simp [splitNewRegions, Region.range, pieces]
  | cons k ks ih =>
    cases reqs with
    | nil => cases hlen
    | cons req reqs =>
      have hk : k ≠ [] := hks k List.mem_cons_self
      obtain ⟨hranges, hleft, hids, hepoch⟩ := ih (a := k) (Nat.succ.inj hlen)
        (fun k' hk' => hks k' (List.mem_cons_of_mem k hk'))
      simp only [List.cons_append] at hranges hleft hids hepoch
      refine ⟨?_, ?_, ?_, ?_⟩
      · simp [splitNewRegions, Region.range, pieces, hranges, hk]
      · simpa [splitNewRegions] using hleft
      · simpa [splitNewRegions] using hids
      · simpa [splitNewRegions] using hepoch

/-- The regions of an accepted batch split: the pieces of the region cut at
the split keys, under the region's id and the new ids, all at the version
raised by the number of requests, the derived region among them. -/
theorem batchSplitRegions_spec {region : Region} {req : BatchSplitRequest}
    (hval : validateBatchSplit req region = .ok ()) :
    (batchSplitRegions region req).2.map Region.range =
        pieces region.startKey (req.requests.map (·.splitKey)) (endBound region.endKey) ∧
      ((batchSplitRegions region req).2.map (·.id)).Perm
        (region.id :: req.requests.map (·.newRegionId)) ∧
      (∀ r ∈ (batchSplitRegions region req).2,
        r.regionEpoch.version = region.regionEpoch.version + req.requests.length) ∧
      (batchSplitRegions region req).1 ∈ (batchSplitRegions region req).2 ∧
      (batchSplitRegions region req).1.id = region.id := by
  obtain ⟨requests, rightDerive⟩ := req
  obtain ⟨hne, -, -, hkeys⟩ := validateBatchSplit_ok hval
  have hnil : ∀ k ∈ requests.map (·.splitKey), k ≠ [] := by
    simp only [List.mem_map]
    rintro k ⟨r, hr, rfl⟩
    exact (hkeys r hr).1
  cases rightDerive
  · -- left derive: the derived region keeps `[start, k₁)`, the new ones follow
    obtain ⟨r₁, rs, rfl⟩ := List.exists_cons_of_ne_nil hne
    have hk₁ : r₁.splitKey ≠ [] := (hkeys r₁ List.mem_cons_self).1
    let derived : Region := { region with
      regionEpoch := { region.regionEpoch with
        version := region.regionEpoch.version + (r₁ :: rs).length }
      endKey := r₁.splitKey }
    have hsplit : batchSplitRegions region ⟨r₁ :: rs, false⟩ = (derived, derived ::
        (splitNewRegions derived (r₁ :: rs) (r₁.splitKey :: rs.map (·.splitKey) ++ [region.endKey])).1) :=
      rfl
    obtain ⟨hranges, -, hids, hepoch⟩ :=
      @splitNewRegions_spec derived (r₁ :: rs) r₁.splitKey region.endKey (rs.map (·.splitKey))
        (by simp) (fun k hk => hnil k (List.mem_cons_of_mem _ hk))
    rw [hsplit]
    refine ⟨?_, ?_, ?_, List.mem_cons_self, rfl⟩
    · rw [List.map_cons, hranges]
      simp [derived, Region.range, pieces, hk₁]
    · rw [List.map_cons, hids]
    · intro r hr
      rcases List.mem_cons.mp hr with rfl | hr
      · rfl
      · simp [hepoch r hr, derived]
  · -- right derive: the new regions take `[start, k₁) … [kₙ₋₁, kₙ)`, the derived one `[kₙ, end)`
    have hkeys_ne : requests.map (·.splitKey) ≠ [] := by simpa using hne
    have hpos : 0 < requests.length := List.length_pos_of_ne_nil hne
    have hlast := List.dropLast_concat_getLast hkeys_ne
    let derived : Region := { region with
      regionEpoch := { region.regionEpoch with
        version := region.regionEpoch.version + requests.length } }
    let split := splitNewRegions derived requests (region.startKey :: requests.map (·.splitKey))
    have hsplit : batchSplitRegions region ⟨requests, true⟩ =
        ({ derived with startKey := split.2.headD [] },
          split.1 ++ [{ derived with startKey := split.2.headD [] }]) :=
      rfl
    obtain ⟨hranges, hleft, hids, hepoch⟩ :=
      @splitNewRegions_spec derived requests region.startKey
        ((requests.map (·.splitKey)).getLast hkeys_ne) (requests.map (·.splitKey)).dropLast
        (by simp; omega) (fun k hk => hnil k (List.dropLast_subset _ hk))
    rw [List.cons_append, hlast] at hranges hleft hids hepoch
    rw [endBound_of_ne_nil (hnil _ (List.getLast_mem hkeys_ne))] at hranges
    rw [hsplit]
    refine ⟨?_, ?_, ?_, by simp, rfl⟩
    · rw [List.map_append, hranges]
      conv_rhs => rw [← hlast, pieces_append]
      simp [split, hleft, derived, Region.range]
    · rw [List.map_append, hids]
      exact List.perm_append_singleton region.id _
    · intro r hr
      rcases List.mem_append.mp hr with hr | hr
      · simp [hepoch r hr, derived]
      · rw [List.mem_singleton.mp hr]

/-! ## Batch split: the response -/

theorem validateBatchSplitGo_peerIds {splitReqs : List SplitRequest} {region : Region} :
    ∀ {lastKey : Bytes} {reqs : List SplitRequest},
      validateBatchSplitGo splitReqs region lastKey reqs = .ok () →
      ∀ r ∈ reqs, r.newPeerIds.length = region.peers.length
  | _, [], _ => fun r hr => absurd hr List.not_mem_nil
  | lastKey, req :: reqs, h => by
    unfold validateBatchSplitGo at h
    split at h
    · cases h
    split at h
    · cases h
    split at h
    · cases h
    rename_i hlen
    intro r hr
    rcases List.mem_cons.mp hr with rfl | hr
    · exact not_not.mp hlen
    · exact validateBatchSplitGo_peerIds h r hr

theorem validateBatchSplit_peerIds {req : BatchSplitRequest} {region : Region}
    (h : validateBatchSplit req region = .ok ()) :
    ∀ r ∈ req.requests, r.newPeerIds.length = region.peers.length := by
  unfold validateBatchSplit at h
  split at h
  · cases h
  · exact validateBatchSplitGo_peerIds h

/-- With as many new peer ids as peers, each peer takes the id at its place. -/
theorem setPeerIds_eq_zipWith :
    ∀ (ps : List Peer) (is : List Nat), is.length = ps.length →
      setPeerIds ps is = List.zipWith (fun p i => { p with id := i }) ps is
  | [], [], _ => rfl
  | p :: ps, i :: is, h => by
    rw [setPeerIds, List.zipWith_cons_cons, setPeerIds_eq_zipWith ps is (by simpa using h)]
  | [], _ :: _, h => by simp at h
  | _ :: _, [], h => by simp at h

section SplitNewRegions

variable (derived : Region)

theorem splitNewRegions_snd :
    ∀ (reqs : List SplitRequest) (keys : List Bytes),
      (splitNewRegions derived reqs keys).2 = keys.drop reqs.length
  | [], _ => rfl
  | _ :: reqs, keys => by
    rw [splitNewRegions, splitNewRegions_snd reqs keys.tail, List.length_cons, List.drop_tail]

theorem splitNewRegions_startKeys :
    ∀ (reqs : List SplitRequest) (keys : List Bytes), reqs.length ≤ keys.length →
      (splitNewRegions derived reqs keys).1.map (·.startKey) = keys.take reqs.length
  | [], _, _ => rfl
  | _ :: reqs, k :: keys, h => by
    rw [splitNewRegions, List.map_cons, List.tail_cons,
      splitNewRegions_startKeys reqs keys (by simpa using h)]
    rfl
  | _ :: _, [], h => by simp at h

theorem splitNewRegions_endKeys :
    ∀ (reqs : List SplitRequest) (keys : List Bytes), reqs.length < keys.length →
      (splitNewRegions derived reqs keys).1.map (·.endKey) = keys.tail.take reqs.length
  | [], _, _ => rfl
  | _ :: reqs, _ :: k :: keys, h => by
    rw [splitNewRegions, List.map_cons, List.tail_cons,
      splitNewRegions_endKeys reqs (k :: keys) (by simpa using h)]
    rfl
  | _ :: _, [], h => by simp at h
  | _ :: _, [_], h => by simp at h

theorem splitNewRegions_idsPeers :
    ∀ (reqs : List SplitRequest) (keys : List Bytes),
      (splitNewRegions derived reqs keys).1.map (fun r => (r.id, r.peers)) =
        reqs.map fun q => (q.newRegionId, setPeerIds derived.peers q.newPeerIds)
  | [], _ => rfl
  | _ :: reqs, keys => by
    rw [splitNewRegions, List.map_cons, splitNewRegions_idsPeers reqs keys.tail]
    rfl

theorem splitNewRegions_epoch :
    ∀ (reqs : List SplitRequest) (keys : List Bytes),
      ∀ r ∈ (splitNewRegions derived reqs keys).1, r.regionEpoch = derived.regionEpoch
  | [], _ => fun r hr => absurd hr List.not_mem_nil
  | _ :: reqs, keys => by
    intro r hr
    rcases List.mem_cons.mp hr with rfl | hr
    · rfl
    · exact splitNewRegions_epoch reqs keys.tail r hr

end SplitNewRegions

/-! ## Batch split: the new peers -/

theorem newRegions_idsPeers (region : Region) (req : BatchSplitRequest) :
    (newRegions region req).map (fun r => (r.id, r.peers)) =
      req.requests.map fun q => (q.newRegionId, setPeerIds region.peers q.newPeerIds) := by
  obtain ⟨requests, rightDerive⟩ := req
  cases rightDerive
  · simp only [newRegions, batchSplitRegions, Bool.false_eq_true, if_false, List.tail_cons]
    exact splitNewRegions_idsPeers _ requests _
  · simp only [newRegions, batchSplitRegions, if_true, List.dropLast_concat]
    exact splitNewRegions_idsPeers _ requests _

theorem newRegions_ids (region : Region) (req : BatchSplitRequest) :
    (newRegions region req).map (·.id) = req.requests.map (·.newRegionId) := by
  simpa [List.map_map, Function.comp_def] using congrArg (List.map Prod.fst) (newRegions_idsPeers region req)

/-- The ids the split's loops visit have no region state when the requested
ids have none. -/
theorem newIds_fresh {engine : Store} {region : Region} {req : BatchSplitRequest}
    (hfresh : ∀ q ∈ req.requests, engine q.newRegionId = none) :
    ∀ id ∈ ((newRegions region req).map (·.id)).dedup, engine id = none := by
  intro id hid
  rw [List.mem_dedup, newRegions_ids] at hid
  obtain ⟨q, hq, rfl⟩ := List.mem_map.mp hid
  exact hfresh q hq

/-- Setting the peer ids keeps the stores. -/
theorem find?_setPeerIds_isSome (storeId : Nat) :
    ∀ (ps : List Peer) (is : List Nat),
      ((setPeerIds ps is).find? (·.storeId == storeId)).isSome =
        (ps.find? (·.storeId == storeId)).isSome
  | p :: ps, i :: is => by
    simp only [setPeerIds, List.find?_cons]
    cases p.storeId == storeId
    · exact find?_setPeerIds_isSome storeId ps is
    · rfl
  | [], _ => rfl
  | _ :: _, [] => rfl

/-- Each new region has a peer on every store the region has one on. -/
theorem findPeer_newRegions_isSome {region : Region} {req : BatchSplitRequest} {storeId : Nat}
    (hpeer : (findPeer region storeId).isSome) : ∀ r ∈ newRegions region req, (findPeer r storeId).isSome := by
  intro r hr
  have hmem : (r.id, r.peers) ∈
      req.requests.map fun q => (q.newRegionId, setPeerIds region.peers q.newPeerIds) := by
    rw [← newRegions_idsPeers]
    exact List.mem_map_of_mem hr
  obtain ⟨q, -, hq⟩ := List.mem_map.mp hmem
  unfold findPeer
  rw [← (Prod.mk.inj hq).2, find?_setPeerIds_isSome]
  exact hpeer

section NewSplitPeers

variable {storeId : Nat}

theorem insertNewSplitPeers_ok_of_findPeer :
    ∀ {rs : List Region} (m : Nat → Option NewSplitPeer), (∀ r ∈ rs, (findPeer r storeId).isSome) →
      ∃ m', insertNewSplitPeers storeId m rs = .ok m'
  | [], m, _ => ⟨m, rfl⟩
  | r :: rs, m, h => by
    obtain ⟨peer, hp⟩ := Option.isSome_iff_exists.mp (h r List.mem_cons_self)
    simp only [insertNewSplitPeers, hp]
    exact insertNewSplitPeers_ok_of_findPeer _ fun r' hr' => h r' (List.mem_cons_of_mem r hr')

theorem insertNewSplitPeers_of_not_mem :
    ∀ {rs : List Region} {m m' : Nat → Option NewSplitPeer}, insertNewSplitPeers storeId m rs = .ok m' →
      ∀ id, (∀ r ∈ rs, r.id ≠ id) → m' id = m id
  | [], _, _, h, _, _ => by cases h; rfl
  | r :: rs, m, m', h, id, hid => by
    unfold insertNewSplitPeers at h
    split at h
    · cases h
    · rw [insertNewSplitPeers_of_not_mem h id fun r' hr' => hid r' (List.mem_cons_of_mem r hr'),
        Function.update_of_ne (hid r List.mem_cons_self).symm]

/-- The map a split builds marks no region yet, and maps each new region with
an id of its own to the region's peer on the store. -/
theorem insertNewSplitPeers_spec :
    ∀ {rs : List Region} {m m' : Nat → Option NewSplitPeer}, insertNewSplitPeers storeId m rs = .ok m' →
      (∀ id p, m id = some p → p.result = none) → (rs.map (·.id)).Nodup →
      (∀ id p, m' id = some p → p.result = none) ∧
        ∀ r ∈ rs, ∃ peer, findPeer r storeId = some peer ∧ m' r.id = some ⟨peer.id, none⟩
  | [], _, _, h, hm, _ => by
    cases h
    exact ⟨hm, fun r hr => absurd hr List.not_mem_nil⟩
  | r :: rs, m, m', h, hm, hnd => by
    rw [List.map_cons, List.nodup_cons] at hnd
    unfold insertNewSplitPeers at h
    split at h
    · cases h
    rename_i peer hpeer
    -- the entry just made is unmarked like the others
    have hm₁ : ∀ id p, Function.update m r.id (some ⟨peer.id, none⟩) id = some p → p.result = none := by
      intro id p hp
      by_cases hid : id = r.id
      · rw [hid, Function.update_self] at hp
        cases hp
        rfl
      · exact hm id p (by rwa [Function.update_of_ne hid] at hp)
    obtain ⟨hres, hmem⟩ := insertNewSplitPeers_spec h hm₁ hnd.2
    refine ⟨hres, fun r' hr' => ?_⟩
    rcases List.mem_cons.mp hr' with rfl | hr'
    · refine ⟨peer, hpeer, ?_⟩
      rw [insertNewSplitPeers_of_not_mem h _ fun r'' hr'' he => hnd.1 (List.mem_map.mpr ⟨r'', hr'', he⟩),
        Function.update_self]
    · exact hmem r' hr'

end NewSplitPeers

/-- A turn of the pending loop touches its own id only. -/
theorem markPendingCreatePeer_of_ne (acc : SplitPeers) {regionId id : Nat} (h : id ≠ regionId) :
    (markPendingCreatePeer acc regionId).pendingCreatePeers id = acc.pendingCreatePeers id ∧
      (markPendingCreatePeer acc regionId).newSplitRegions id = acc.newSplitRegions id := by
  unfold markPendingCreatePeer
  split
  · exact ⟨rfl, rfl⟩
  · split
    · split <;> simp [Function.update_of_ne h]
    · simp [Function.update_of_ne h]

/-- A turn on a region the store is not creating, or is creating for the
split's own peer from a raft message, marks nothing. -/
theorem markPendingCreatePeer_newSplitRegions {acc : SplitPeers} {regionId : Nat}
    (h : ∀ p v, acc.newSplitRegions regionId = some p → acc.pendingCreatePeers regionId = some v →
      v = (p.peerId, false)) :
    (markPendingCreatePeer acc regionId).newSplitRegions = acc.newSplitRegions := by
  unfold markPendingCreatePeer
  split
  · rfl
  · rename_i p hp
    split
    · rename_i v hv
      rw [if_neg (not_not.mpr (h p v hp hv))]
    · rfl

/-- The pending loop marks nothing when each id it visits is absent from
`pending_create_peers` or held for the split's own peer from a raft message. -/
theorem foldl_markPendingCreatePeer_newSplitRegions :
    ∀ {ids : List Nat} {acc : SplitPeers}, ids.Nodup →
      (∀ id ∈ ids, ∀ p v, acc.newSplitRegions id = some p → acc.pendingCreatePeers id = some v →
        v = (p.peerId, false)) →
      (ids.foldl markPendingCreatePeer acc).newSplitRegions = acc.newSplitRegions
  | [], _, _, _ => rfl
  | id :: ids, acc, hnd, h => by
    rw [List.nodup_cons] at hnd
    have hstep := markPendingCreatePeer_newSplitRegions (h id List.mem_cons_self)
    rw [List.foldl_cons, foldl_markPendingCreatePeer_newSplitRegions hnd.2 ?_, hstep]
    -- the later ids see the state this turn left them
    intro id' hid' p v hp hv
    have hne : id' ≠ id := fun he => hnd.1 (he ▸ hid')
    rw [hstep] at hp
    rw [(markPendingCreatePeer_of_ne acc hne).1] at hv
    exact h id' (List.mem_cons_of_mem id hid') p v hp hv

theorem checkRegionState_of_none {engine : Store} (acc : SplitPeers × List (Nat × Nat))
    {regionId : Nat} (h : engine regionId = none) : checkRegionState engine acc regionId = .ok acc := by
  unfold checkRegionState
  split
  · rename_i hs
    rw [h] at hs
    cases hs
  · rfl

/-- The loop over the region states changes nothing when no new id has one. -/
theorem foldlM_checkRegionState_of_none {engine : Store} :
    ∀ {ids : List Nat} (acc : SplitPeers × List (Nat × Nat)), (∀ id ∈ ids, engine id = none) →
      ids.foldlM (checkRegionState engine) acc = .ok acc
  | [], _, _ => rfl
  | id :: ids, acc, h => by
    rw [List.foldlM_cons, checkRegionState_of_none acc (h id List.mem_cons_self)]
    exact foldlM_checkRegionState_of_none acc fun id' hid' => h id' (List.mem_cons_of_mem id hid')

/-- A split that goes through passed validation, answers with the split's
regions, and writes them as its loops left `new_split_regions`. -/
theorem execBatchSplit_ok {ctx ctx' : ApplyContext} {region : Region} {req : BatchSplitRequest}
    {resp : List Region} (h : execBatchSplit ctx region req = .ok (resp, ctx')) :
    validateBatchSplit req region = .ok () ∧ resp = (batchSplitRegions region req).2 ∧
      ∃ nsr checked,
        insertNewSplitPeers ctx.storeId (fun _ => none) (newRegions region req) = .ok nsr ∧
        ((newRegions region req).map (·.id)).dedup.foldlM (checkRegionState ctx.engine)
            (((newRegions region req).map (·.id)).dedup.foldl markPendingCreatePeer
              ⟨nsr, [], ctx.pendingCreatePeers⟩, []) = .ok checked ∧
        ctx'.engine = writeSplit ctx.engine checked.1.newSplitRegions (batchSplitRegions region req).1
          (batchSplitRegions region req).2 := by
  unfold execBatchSplit at h
  obtain ⟨⟨⟩, hval, h⟩ := ExceptState.bind_eq_ok h
  obtain ⟨nsr, hins, h⟩ := ExceptState.bind_eq_ok h
  obtain ⟨checked, hfold, h⟩ := ExceptState.bind_eq_ok h
  obtain ⟨pending, -, h⟩ := ExceptState.bind_eq_ok h
  simp only [pure, Except.pure, Except.ok.injEq, Prod.mk.injEq] at h
  obtain ⟨rfl, rfl⟩ := h
  exact ⟨hval, rfl, nsr, checked, hins, hfold, rfl⟩

/-- A split of a region with a peer on this store, whose new ids have no
region state, goes through. -/
theorem execBatchSplit_responds {ctx : ApplyContext} {region : Region} {req : BatchSplitRequest}
    (hval : validateBatchSplit req region = .ok ())
    (hfresh : ∀ q ∈ req.requests, ctx.engine q.newRegionId = none)
    (hpeer : (findPeer region ctx.storeId).isSome) :
    ∃ ctx', execBatchSplit ctx region req = .ok ((batchSplitRegions region req).2, ctx') := by
  obtain ⟨nsr, hins⟩ :=
    insertNewSplitPeers_ok_of_findPeer (fun _ => none) (@findPeer_newRegions_isSome region req _ hpeer)
  simp only [execBatchSplit, hval, hins, foldlM_checkRegionState_of_none _ (newIds_fresh hfresh), bind,
    Except.bind, removeAlreadyExist, pure, Except.pure, Except.ok.injEq, Prod.mk.injEq, true_and,
    exists_eq']

/-- The regions of an accepted batch split, in the order of the response:
the ranges `[s, k₁), [k₁, k₂), …, [kₙ, e)`, all at the version raised by `n`
and the region's conf version; the derived region keeps the region's id and
comes first, or last with `right_derive`; the `i`-th new region has the
`i`-th requested id and the region's peers, each with the requested peer id
at its place. The split answers with these regions whenever it goes through,
and it goes through when the region has a peer on this store and no new id
has a region state. -/
theorem batchSplit_regions {ctx : ApplyContext} {region : Region} {req : BatchSplitRequest}
    (hval : validateBatchSplit req region = .ok ()) :
    (∀ resp ctx', execBatchSplit ctx region req = .ok (resp, ctx') →
        resp = (batchSplitRegions region req).2) ∧
      ((∀ q ∈ req.requests, ctx.engine q.newRegionId = none) → (findPeer region ctx.storeId).isSome →
        ∃ ctx', execBatchSplit ctx region req = .ok ((batchSplitRegions region req).2, ctx')) ∧
      (batchSplitRegions region req).2.map (·.startKey) =
        region.startKey :: req.requests.map (·.splitKey) ∧
      (batchSplitRegions region req).2.map (·.endKey) =
        req.requests.map (·.splitKey) ++ [region.endKey] ∧
      (∀ r ∈ (batchSplitRegions region req).2, r.regionEpoch =
        { region.regionEpoch with version := region.regionEpoch.version + req.requests.length }) ∧
      (batchSplitRegions region req).1.id = region.id ∧
      (if req.rightDerive then (batchSplitRegions region req).2.getLast?
        else (batchSplitRegions region req).2.head?) = some (batchSplitRegions region req).1 ∧
      (if req.rightDerive then (batchSplitRegions region req).2.dropLast
        else (batchSplitRegions region req).2.tail).map (fun r => (r.id, r.peers)) =
        req.requests.map fun q =>
          (q.newRegionId, List.zipWith (fun p i => { p with id := i }) region.peers q.newPeerIds) := by
  refine ⟨fun resp ctx' h => (execBatchSplit_ok h).2.1, fun hfresh hpeer =>
    execBatchSplit_responds hval hfresh hpeer, ?_⟩
  have hpeers := validateBatchSplit_peerIds hval
  obtain ⟨hne, -, -, -⟩ := validateBatchSplit_ok hval
  obtain ⟨requests, rightDerive⟩ := req
  -- the peers of the new regions, as the statement writes them
  have hzip : requests.map (fun q => (q.newRegionId, setPeerIds region.peers q.newPeerIds)) =
      requests.map fun q =>
        (q.newRegionId, List.zipWith (fun p i => { p with id := i }) region.peers q.newPeerIds) :=
    List.map_congr_left fun q hq => by rw [setPeerIds_eq_zipWith _ _ (hpeers q hq)]
  have hlen : (requests.map (·.splitKey)).length = requests.length := List.length_map _
  cases rightDerive
  · -- left derive: the derived region keeps `[s, k₁)`, the new ones cut `[k₁, e)`
    obtain ⟨r₁, rs, rfl⟩ := List.exists_cons_of_ne_nil hne
    let derived : Region := { region with
      regionEpoch := { region.regionEpoch with
        version := region.regionEpoch.version + (r₁ :: rs).length }
      endKey := r₁.splitKey }
    let keys := (r₁ :: rs).map (·.splitKey) ++ [region.endKey]
    have hsplit : batchSplitRegions region ⟨r₁ :: rs, false⟩ =
        (derived, derived :: (splitNewRegions derived (r₁ :: rs) keys).1) := rfl
    have hkeys : (r₁ :: rs).length < keys.length := by simp [keys]
    rw [hsplit]
    simp only [Bool.false_eq_true, if_false]
    refine ⟨?_, ?_, ?_, rfl, rfl, ?_⟩
    · rw [List.map_cons, splitNewRegions_startKeys derived _ keys hkeys.le,
        List.take_left' (List.length_map _)]
    · rw [List.map_cons, splitNewRegions_endKeys derived _ keys hkeys]
      simp [keys, derived, List.take_of_length_le]
    · intro r hr
      rcases List.mem_cons.mp hr with rfl | hr
      · rfl
      · rw [splitNewRegions_epoch derived _ keys r hr]
    · rw [List.tail_cons, splitNewRegions_idsPeers]
      exact hzip
  · -- right derive: the new ones cut `[s, kₙ)`, the derived region keeps `[kₙ, e)`
    let derived : Region := { region with
      regionEpoch := { region.regionEpoch with
        version := region.regionEpoch.version + requests.length } }
    let keys := region.startKey :: requests.map (·.splitKey)
    let split := splitNewRegions derived requests keys
    have hsplit : batchSplitRegions region ⟨requests, true⟩ =
        ({ derived with startKey := split.2.headD [] },
          split.1 ++ [{ derived with startKey := split.2.headD [] }]) := rfl
    have hkeys : requests.length < keys.length := by simp [keys]
    -- one key is left after the new regions: the last split key
    have hsnd : [split.2.headD []] = keys.drop requests.length := by
      rw [splitNewRegions_snd]
      obtain ⟨x, hx⟩ := List.length_eq_one_iff.mp
        (show (keys.drop requests.length).length = 1 by simp [keys])
      rw [hx]
      rfl
    rw [hsplit]
    simp only [↓reduceIte, List.getLast?_concat, List.dropLast_concat]
    refine ⟨?_, ?_, ?_, rfl, trivial, ?_⟩
    · rw [List.map_append, splitNewRegions_startKeys derived _ keys hkeys.le, List.map_singleton]
      calc keys.take requests.length ++ [split.2.headD []]
          = keys.take requests.length ++ keys.drop requests.length := by rw [hsnd]
        _ = keys := List.take_append_drop _ _
    · rw [List.map_append, splitNewRegions_endKeys derived _ keys hkeys]
      simp [keys, derived, List.take_of_length_le]
    · intro r hr
      rcases List.mem_append.mp hr with hr | hr
      · rw [splitNewRegions_epoch derived _ keys r hr]
      · rw [List.mem_singleton.mp hr]
    · rw [splitNewRegions_idsPeers]
      exact hzip

/-- `[1, 9)` cut at 3 and 5 with `right_derive`: `[1, 3)` and `[3, 5)` go to
regions 2 and 3, and region 1 keeps `[5, 9)`. -/
theorem batchSplit_regions_twoKeys :
    let region : Region := ⟨1, [1], [9], ⟨1, 1⟩, [⟨11, 1⟩, ⟨12, 2⟩]⟩
    let req : BatchSplitRequest := ⟨[⟨[3], 2, [21, 22]⟩, ⟨[5], 3, [31, 32]⟩], true⟩
    (batchSplitRegions region req).2.map (·.startKey) = [[1], [3], [5]] ∧
      (batchSplitRegions region req).2.map (·.endKey) = [[3], [5], [9]] := by
  intro region req
  have h := @batchSplit_regions ⟨1, fun _ => none, fun _ => none⟩ region req
    (show validateBatchSplit req region = .ok () by decide)
  exact ⟨h.2.2.1, h.2.2.2.1⟩

/-! ## Batch split: the writes -/

section Writes

variable {nsr : Nat → Option NewSplitPeer} (derived : Region)

/-- With no region marked, the loop writes every region but the derived one. -/
theorem writeNewRegion_of_unmarked (hnsr : ∀ id p, nsr id = some p → p.result = none) (acc : Store)
    (r : Region) : writeNewRegion nsr derived acc r = if r.id = derived.id then acc else acc.write .normal r := by
  have hb : ((nsr r.id).bind (·.result)).isSome = false := by
    cases h : nsr r.id with
    | none => rfl
    | some p => simp [hnsr r.id p h]
  simp [writeNewRegion, hb]

theorem foldl_writeNewRegion_of_not_mem {regions : List Region} {acc : Store} {id : Nat}
    (h : ∀ r ∈ regions, r.id ≠ id) : regions.foldl (writeNewRegion nsr derived) acc id = acc id := by
  induction regions generalizing acc with
  | nil => rfl
  | cons r rs ih =>
    rw [List.foldl_cons, ih fun r' hr' => h r' (List.mem_cons_of_mem r hr')]
    have hr : id ≠ r.id := fun he => h r List.mem_cons_self he.symm
    unfold writeNewRegion Store.write
    split <;> simp [hr]

/-- A listed region other than the derived one, unmarked, is written by the
loop, and no later write of the loop has its id. -/
theorem foldl_writeNewRegion_of_mem (hnsr : ∀ id p, nsr id = some p → p.result = none)
    {regions : List Region} (hnd : (regions.map (·.id)).Nodup) {r : Region} (hr : r ∈ regions)
    (hd : r.id ≠ derived.id) (acc : Store) :
    regions.foldl (writeNewRegion nsr derived) acc r.id = some ⟨.normal, r⟩ := by
  induction regions generalizing acc with
  | nil => exact absurd hr List.not_mem_nil
  | cons x xs ih =>
    rw [List.map_cons, List.nodup_cons] at hnd
    rw [List.foldl_cons]
    rcases List.mem_cons.mp hr with rfl | hr
    · rw [foldl_writeNewRegion_of_not_mem derived
        fun r' hr' he => hnd.1 (List.mem_map.mpr ⟨r', hr', he⟩)]
      simp [writeNewRegion_of_unmarked derived hnsr, Store.write, hd]
    · exact ih hnd.2 hr _

/-- A property of stores that every write of a listed region keeps holds after
the loop. -/
theorem foldl_writeNewRegion_induct {P : Store → Prop} {regions : List Region}
    (hstep : ∀ acc, P acc → ∀ r ∈ regions, P (acc.write .normal r)) {acc : Store} (h : P acc) :
    P (regions.foldl (writeNewRegion nsr derived) acc) := by
  induction regions generalizing acc with
  | nil => exact h
  | cons r rs ih =>
    rw [List.foldl_cons]
    refine ih (fun acc' h' r' hr' => hstep acc' h' r' (List.mem_cons_of_mem r hr')) ?_
    unfold writeNewRegion
    split
    · exact h
    · exact hstep acc h r List.mem_cons_self

variable {derived}

theorem writeSplit_of_mem {s : Store} (hnsr : ∀ id p, nsr id = some p → p.result = none)
    {regions : List Region} (hnd : (regions.map (·.id)).Nodup) (hd : derived ∈ regions) {r : Region}
    (hr : r ∈ regions) : writeSplit s nsr derived regions r.id = some ⟨.normal, r⟩ := by
  unfold writeSplit
  by_cases hid : r.id = derived.id
  · obtain rfl : r = derived := List.inj_on_of_nodup_map hnd hr hd hid
    simp [Store.write]
  · simp only [Store.write, hid, if_false]
    exact foldl_writeNewRegion_of_mem derived hnsr hnd hr hid s

theorem writeSplit_of_not_mem {s : Store} {regions : List Region} (hd : derived ∈ regions) {id : Nat}
    (h : ∀ r ∈ regions, r.id ≠ id) : writeSplit s nsr derived regions id = s id := by
  unfold writeSplit
  simp only [Store.write, Ne.symm (h derived hd), if_false]
  exact foldl_writeNewRegion_of_not_mem derived h

end Writes

/-- A split that goes through writes no id outside its regions. -/
theorem execBatchSplit_of_not_mem {ctx ctx' : ApplyContext} {region : Region} {req : BatchSplitRequest}
    {resp : List Region} (h : execBatchSplit ctx region req = .ok (resp, ctx')) {id : Nat}
    (hid : id ∉ (batchSplitRegions region req).2.map (·.id)) : ctx'.engine id = ctx.engine id := by
  obtain ⟨hval, -, nsr, checked, -, -, heng⟩ := execBatchSplit_ok h
  rw [heng]
  exact writeSplit_of_not_mem (batchSplitRegions_spec hval).2.2.2.1
    fun r hr he => hid (List.mem_map.mpr ⟨r, hr, he⟩)

/-! ## Owners of keys -/

/-- Whether `id` is a live region holding `key`. -/
def owns (s : Store) (id : Nat) (key : Bytes) : Bool :=
  match delegate s id with
  | some region => checkKeyInRegion key region
  | none => false

/-- The live regions partition the key space: every key has exactly one. -/
def Partitioned (s : Store) : Prop :=
  Tiling (owns s)

/-- Each region state sits under its region's id. -/
def KeyedById (s : Store) : Prop :=
  ∀ id st, s id = some st → st.region.id = id

/-- Each region starts at or below its end. -/
def WellFormed (s : Store) : Prop :=
  ∀ id st, s id = some st → BoundLe st.region.startKey (endBound st.region.endKey)

/-- What the region states keep through every command. -/
structure Inv (s : Store) : Prop where
  keyed : KeyedById s
  wellFormed : WellFormed s
  partitioned : Partitioned s

theorem KeyedById.write {s : Store} (h : KeyedById s) (state : PeerState) (region : Region) :
    KeyedById (s.write state region) := by
  intro id st hst
  unfold Store.write at hst
  split at hst
  · cases hst
    exact (‹id = region.id›).symm
  · exact h id st hst

theorem WellFormed.write {s : Store} (h : WellFormed s) (state : PeerState) {region : Region}
    (hr : BoundLe region.startKey (endBound region.endKey)) : WellFormed (s.write state region) := by
  intro id st hst
  unfold Store.write at hst
  split at hst
  · cases hst
    exact hr
  · exact h id st hst

theorem delegate_eq_some {s : Store} {id : Nat} {region : Region} :
    delegate s id = some region ↔ ∃ state, s id = some ⟨state, region⟩ ∧ state ≠ .tombstone := by
  unfold delegate
  split
  · rename_i st hst
    obtain ⟨state, r⟩ := st
    by_cases ht : state = .tombstone <;> simp [hst, ht]
  · rename_i hs
    simp [hs]

@[simp] theorem delegate_write (s : Store) (state : PeerState) (region : Region) (id : Nat) :
    delegate (s.write state region) id =
      if id = region.id then (if state = .tombstone then none else some region) else delegate s id := by
  unfold delegate Store.write
  by_cases hid : id = region.id <;> simp [hid]

theorem owns_of_delegate {s : Store} {id : Nat} {region : Region} (h : delegate s id = some region)
    (key : Bytes) : owns s id key = holds key region.range := by
  simp only [owns, h, checkKeyInRegion_eq_holds]

theorem owns_of_delegate_none {s : Store} {id : Nat} (h : delegate s id = none) (key : Bytes) :
    owns s id key = false := by
  rw [owns, h]

theorem owns_congr {s s' : Store} {id : Nat} (h : s' id = s id) : owns s' id = owns s id := by
  funext key
  simp only [owns, delegate, h]

theorem delegate_id {s : Store} (hinv : Inv s) {id : Nat} {region : Region}
    (h : delegate s id = some region) : region.id = id := by
  obtain ⟨state, hs, -⟩ := delegate_eq_some.mp h
  exact hinv.keyed id _ hs

theorem delegate_wellFormed {s : Store} (hinv : Inv s) {id : Nat} {region : Region}
    (h : delegate s id = some region) : BoundLe region.startKey (endBound region.endKey) := by
  obtain ⟨state, hs, -⟩ := delegate_eq_some.mp h
  exact hinv.wellFormed id _ hs

theorem delegate_of_none {s : Store} {id : Nat} (h : s id = none) : delegate s id = none := by
  simp [delegate, h]

/-- Live regions written under their ids hold each key as often as their
ranges do. -/
theorem countP_owns_of_delegate {s : Store} {regions : List Region}
    (h : ∀ r ∈ regions, delegate s r.id = some r) (key : Bytes) :
    (regions.map (·.id)).countP (owns s · key) = (regions.map Region.range).countP (holds key) := by
  rw [List.countP_map, List.countP_map]
  exact List.countP_congr fun r hr => by simp [owns_of_delegate (h r hr)]

/-! ## Batch split keeps the invariant -/

section Split

variable {ctx ctx' : ApplyContext} {region : Region} {req : BatchSplitRequest} {resp : List Region}

/-- What the cluster ensures of a split's new regions: their ids are
distinct and have no region state, and the store is creating none of them,
or only the split's own peer from a raft message. -/
def SplitFresh (ctx : ApplyContext) (region : Region) (req : BatchSplitRequest) : Prop :=
  (req.requests.map (·.newRegionId)).Nodup ∧ (∀ q ∈ req.requests, ctx.engine q.newRegionId = none) ∧
    ∀ r ∈ newRegions region req, ∀ v, ctx.pendingCreatePeers r.id = some v →
      ∃ peer, findPeer r ctx.storeId = some peer ∧ v = (peer.id, false)

/-- A split of fresh regions that goes through marks none of them: it writes
each one. -/
theorem execBatchSplit_unmarked (hfresh : SplitFresh ctx region req)
    (h : execBatchSplit ctx region req = .ok (resp, ctx')) :
    validateBatchSplit req region = .ok () ∧ ∃ nsr, (∀ id p, nsr id = some p → p.result = none) ∧
      ctx'.engine = writeSplit ctx.engine nsr (batchSplitRegions region req).1
        (batchSplitRegions region req).2 := by
  obtain ⟨hnd, hnone, hpending⟩ := hfresh
  obtain ⟨hval, -, nsr, checked, hins, hfold, heng⟩ := execBatchSplit_ok h
  have hids : ((newRegions region req).map (·.id)).Nodup := by
    rw [newRegions_ids]
    exact hnd
  obtain ⟨hres, hpeer⟩ := insertNewSplitPeers_spec hins (fun _ _ h => nomatch h) hids
  -- no region state: the second loop changes nothing and notes nothing
  rw [foldlM_checkRegionState_of_none _ (newIds_fresh hnone)] at hfold
  cases hfold
  refine ⟨hval, nsr, hres, ?_⟩
  rw [heng, foldl_markPendingCreatePeer_newSplitRegions (List.nodup_dedup _) ?_]
  -- each pending entry is the one the split would make, from a raft message
  intro id hid p v hp hv
  obtain ⟨r, hr, rfl⟩ := List.mem_map.mp (List.mem_dedup.mp hid)
  obtain ⟨peer, hfp, hnsr⟩ := hpeer r hr
  obtain ⟨peer', hfp', rfl⟩ := hpending r hr v hv
  rw [hfp] at hfp'
  cases hfp'
  dsimp only at hp
  rw [hnsr] at hp
  cases hp
  rfl

/-- The store after a split of fresh regions of a live region: each of the
split's regions under its own id, once, and every other id as before. -/
theorem execBatchSplit_writes (hlive : delegate ctx.engine region.id = some region)
    (hfresh : SplitFresh ctx region req) (h : execBatchSplit ctx region req = .ok (resp, ctx')) :
    ((batchSplitRegions region req).2.map (·.id)).Nodup ∧
      (∀ r ∈ (batchSplitRegions region req).2, ctx'.engine r.id = some ⟨.normal, r⟩) ∧
      ∀ id, id ∉ (batchSplitRegions region req).2.map (·.id) → ctx'.engine id = ctx.engine id := by
  obtain ⟨hval, nsr, hnsr, heng⟩ := execBatchSplit_unmarked hfresh h
  obtain ⟨-, hperm, -, hmem, -⟩ := batchSplitRegions_spec hval
  have hnew : ∀ id ∈ req.requests.map (·.newRegionId), ctx.engine id = none := by
    simp only [List.mem_map]
    rintro id ⟨r, hr, rfl⟩
    exact hfresh.2.1 r hr
  have hold : ctx.engine region.id ≠ none := by
    obtain ⟨state, hs, -⟩ := delegate_eq_some.mp hlive
    simp [hs]
  have hids : ((batchSplitRegions region req).2.map (·.id)).Nodup :=
    hperm.nodup_iff.mpr (List.nodup_cons.mpr ⟨fun hm => hold (hnew _ hm), hfresh.1⟩)
  rw [heng]
  exact ⟨hids, fun r hr => writeSplit_of_mem hnsr hids hmem hr,
    fun id hid => writeSplit_of_not_mem hmem fun r hr he => hid (List.mem_map.mpr ⟨r, hr, he⟩)⟩

/-- A split of fresh regions of a live region keeps the invariant: each of its
regions is a piece of the region, and the pieces hold each of its keys once. -/
theorem execBatchSplit_inv (hinv : Inv ctx.engine) (hlive : delegate ctx.engine region.id = some region)
    (hfresh : SplitFresh ctx region req) (h : execBatchSplit ctx region req = .ok (resp, ctx')) :
    Inv ctx'.engine := by
  obtain ⟨hids, hin, hout⟩ := execBatchSplit_writes hlive hfresh h
  obtain ⟨hval, nsr, -, heng⟩ := execBatchSplit_unmarked hfresh h
  obtain ⟨hranges, hperm, -, hmem, -⟩ := batchSplitRegions_spec hval
  obtain ⟨-, hchain, hstart, hkeys⟩ := validateBatchSplit_ok hval
  have hbound : ∀ k ∈ req.requests.map (·.splitKey), BoundLe k (endBound region.endKey) := by
    simp only [List.mem_map]
    rintro k ⟨r, hr, rfl⟩
    exact (hkeys r hr).2
  have hpiece : ∀ r ∈ (batchSplitRegions region req).2, BoundLe r.startKey (endBound r.endKey) :=
    fun r hr => boundLe_of_mem_pieces hchain hstart hbound r.range (hranges ▸ List.mem_map_of_mem hr)
  refine ⟨?_, ?_, ?_⟩
  · rw [heng]
    exact (foldl_writeNewRegion_induct _ (fun acc h _ _ => h.write .normal _) hinv.keyed).write .normal _
  · rw [heng]
    exact (foldl_writeNewRegion_induct _ (fun acc h r hr => h.write .normal (hpiece r hr))
      hinv.wellFormed).write .normal (hpiece _ hmem)
  · refine tiling_of_local hids (fun i hi => owns_congr (hout i hi)) (fun key => ?_) hinv.partitioned
    have hlive' : ∀ r ∈ (batchSplitRegions region req).2, delegate ctx'.engine r.id = some r :=
      fun r hr => delegate_eq_some.mpr ⟨.normal, hin r hr, by decide⟩
    -- before: only the region itself owned keys among these ids
    have hbefore : (region.id :: req.requests.map (·.newRegionId)).countP (owns ctx.engine · key) =
        if Mem region.startKey (endBound region.endKey) key then 1 else 0 := by
      have hzero : (req.requests.map (·.newRegionId)).countP (owns ctx.engine · key) = 0 :=
        List.countP_eq_zero.mpr fun id hid => by
          obtain ⟨r, hr, rfl⟩ := List.mem_map.mp hid
          simp [owns_of_delegate_none (delegate_of_none (hfresh.2.1 r hr))]
      rw [List.countP_cons, hzero, owns_of_delegate hlive]
      by_cases hm : Mem region.startKey (endBound region.endKey) key <;> simp [holds, Region.range, hm]
    rw [hperm.countP_eq (owns ctx.engine · key), hbefore, countP_owns_of_delegate hlive', hranges,
      countP_pieces hchain hbound key]

/-- Every region a split writes is at a version above the split region's. -/
theorem execBatchSplit_versions (hlive : delegate ctx.engine region.id = some region)
    (hfresh : SplitFresh ctx region req) (h : execBatchSplit ctx region req = .ok (resp, ctx')) :
    ∀ id st', ctx'.engine id = some st' → (ctx.engine id).map (·.region.range) ≠ some st'.region.range →
      region.regionEpoch.version < st'.region.regionEpoch.version := by
  obtain ⟨-, hin, hout⟩ := execBatchSplit_writes hlive hfresh h
  obtain ⟨hval, -⟩ := execBatchSplit_ok h
  obtain ⟨-, -, hvers, -, -⟩ := batchSplitRegions_spec hval
  have hpos : 0 < req.requests.length := List.length_pos_of_ne_nil (validateBatchSplit_ok hval).1
  intro id st' hst hchanged
  by_cases hid : id ∈ (batchSplitRegions region req).2.map (·.id)
  · obtain ⟨r, hr, rfl⟩ := List.mem_map.mp hid
    rw [hin r hr] at hst
    cases hst
    rw [hvers r hr]
    omega
  · rw [hout id hid] at hst
    exact absurd (by rw [hst]; rfl) hchanged

end Split

/-! ## Merge keeps the invariant -/

theorem isSiblingRegions_eq_true {lhs rhs : Region} :
    isSiblingRegions lhs rhs = true ↔ lhs.id ≠ rhs.id ∧
      ((lhs.startKey = rhs.endKey ∧ rhs.endKey ≠ []) ∨
        (lhs.endKey = rhs.startKey ∧ lhs.endKey ≠ [])) := by
  unfold isSiblingRegions
  split_ifs <;> grind [List.isEmpty_iff]

theorem mergeTarget_ok {region source merged : Region} (h : mergeTarget region source = .ok merged) :
    merged.id = region.id ∧
      merged.regionEpoch.version = max source.regionEpoch.version region.regionEpoch.version + 1 ∧
      if region.endKey ≠ [] ∧ region.endKey = source.startKey then
        merged.startKey = region.startKey ∧ merged.endKey = source.endKey
      else merged.startKey = source.startKey ∧ merged.endKey = region.endKey := by
  unfold mergeTarget at h
  obtain ⟨endKey, hend, h⟩ := ExceptState.bind_eq_ok h
  obtain ⟨startKey, hstart, h⟩ := ExceptState.bind_eq_ok h
  unfold encEndKey at hend
  unfold encStartKey at hstart
  split at hend
  · cases hend
  split at hstart
  · cases hstart
  cases hend
  cases hstart
  cases h
  by_cases hc : region.endKey ≠ [] ∧ region.endKey = source.startKey
  · have hmeet : dataEndKey region.endKey = dataKey source.startKey :=
      (dataEndKey_eq_dataKey_iff _ _).mpr hc
    rw [if_pos hc]
    simp [hmeet]
  · have hmeet : dataEndKey region.endKey ≠ dataKey source.startKey :=
      fun he => hc ((dataEndKey_eq_dataKey_iff _ _).mp he)
    rw [if_neg hc]
    simp [hmeet]

theorem execCommitMerge_ok {s s' : Store} {region source : Region}
    (h : execCommitMerge s region source = .ok s') :
    s source.id = some ⟨.merging, source⟩ ∧
      ∃ merged, mergeTarget region source = .ok merged ∧
        s' = (s.write .normal merged).write .tombstone source := by
  unfold execCommitMerge at h
  split at h
  · cases h
  rename_i st hst
  split at h
  · cases h
  rename_i hstate
  split at h
  · cases h
  rename_i hsrc
  obtain ⟨merged, hm, h⟩ := ExceptState.bind_eq_ok h
  cases h
  obtain ⟨state, r⟩ := st
  simp only [ne_eq, not_not] at hstate hsrc
  subst hstate hsrc
  exact ⟨hst, merged, hm, rfl⟩

/-- The ranges of a merge of siblings: the target and the source are the two
halves `[lo, mid)` and `[mid, hi)` of the merged range, in one order or the
other, and `lo ≤ mid ≤ hi`. -/
theorem mergeTarget_range {region source merged : Region}
    (hsib : isSiblingRegions source region = true)
    (hwr : BoundLe region.startKey (endBound region.endKey))
    (hws : BoundLe source.startKey (endBound source.endKey))
    (h : mergeTarget region source = .ok merged) :
    ∃ lo mid hi, lo ≤ mid ∧ BoundLe mid hi ∧ merged.range = (lo, hi) ∧
      ((region.range = (lo, some mid) ∧ source.range = (mid, hi)) ∨
        (source.range = (lo, some mid) ∧ region.range = (mid, hi))) := by
  obtain ⟨-, -, hkeys⟩ := mergeTarget_ok h
  split at hkeys
  · -- the source lies right of the target
    rename_i hc
    obtain ⟨hne, hmeet⟩ := hc
    refine ⟨region.startKey, region.endKey, endBound source.endKey, ?_, hmeet ▸ hws, ?_, .inl ⟨?_, ?_⟩⟩
    · simpa [endBound_of_ne_nil hne, BoundLe] using hwr
    · simp [Region.range, hkeys]
    · simp [Region.range, hne]
    · simp [Region.range, hmeet]
  · -- otherwise the siblings meet at the target's start
    rename_i hc
    obtain ⟨-, hsides⟩ := isSiblingRegions_eq_true.mp hsib
    have ⟨hmeet, hne⟩ : source.endKey = region.startKey ∧ source.endKey ≠ [] := by
      rcases hsides with ⟨hs, hne⟩ | hright
      · exact absurd ⟨hne, hs.symm⟩ hc
      · exact hright
    refine ⟨source.startKey, source.endKey, endBound region.endKey, ?_, hmeet ▸ hwr, ?_, .inr ⟨?_, ?_⟩⟩
    · simpa [endBound_of_ne_nil hne, BoundLe] using hws
    · simp [Region.range, hkeys]
    · simp [Region.range, hne]
    · simp [Region.range, hmeet]

/-- The merged range holds a key as often as the target and the source
together. -/
theorem indicator_mergeTarget {region source merged : Region}
    (hsib : isSiblingRegions source region = true)
    (hwr : BoundLe region.startKey (endBound region.endKey))
    (hws : BoundLe source.startKey (endBound source.endKey))
    (h : mergeTarget region source = .ok merged) (key : Bytes) :
    (if holds key merged.range then 1 else 0) =
      (if holds key region.range then 1 else 0) + if holds key source.range then 1 else 0 := by
  obtain ⟨lo, mid, hi, hlo, hhi, hm, hjoin⟩ := mergeTarget_range hsib hwr hws h
  have hsum := indicator_join hlo hhi key
  rcases hjoin with ⟨hr, hs⟩ | ⟨hs, hr⟩
  · simpa [hm, hr, hs, holds] using hsum.symm
  · simpa [hm, hr, hs, holds, Nat.add_comm] using hsum.symm

theorem boundLe_mergeTarget {region source merged : Region}
    (hsib : isSiblingRegions source region = true)
    (hwr : BoundLe region.startKey (endBound region.endKey))
    (hws : BoundLe source.startKey (endBound source.endKey))
    (h : mergeTarget region source = .ok merged) :
    BoundLe merged.startKey (endBound merged.endKey) := by
  obtain ⟨lo, mid, hi, hlo, hhi, hm, -⟩ := mergeTarget_range hsib hwr hws h
  have hrange : merged.startKey = lo ∧ endBound merged.endKey = hi := by
    simpa [Region.range] using hm
  rw [hrange.1, hrange.2]
  exact boundLe_of_le_of_boundLe hlo hhi

/-- Preparing a merge changes a live region's epoch and state, not its keys:
the invariant holds on. -/
theorem execPrepareMerge_inv {s : Store} {region : Region} (hinv : Inv s)
    (hlive : delegate s region.id = some region) : Inv (execPrepareMerge s region) := by
  have howns : owns (execPrepareMerge s region) = owns s := by
    funext id key
    by_cases hid : id = region.id
    · subst hid
      simp [owns, execPrepareMerge, hlive, checkKeyInRegion]
    · exact congrFun (owns_congr (by simp [execPrepareMerge, Store.write, hid])) key
  refine ⟨hinv.keyed.write _ _, hinv.wellFormed.write _ ?_, ?_⟩
  · simpa using delegate_wellFormed hinv hlive
  · unfold Partitioned
    rw [howns]
    exact hinv.partitioned

/-- A commit merge of a sibling source keeps the invariant: the target takes
the source's keys, and the source becomes a tombstone. -/
theorem execCommitMerge_inv {s s' : Store} {region source : Region} (hinv : Inv s)
    (hlive : delegate s region.id = some region) (hsib : isSiblingRegions source region = true)
    (h : execCommitMerge s region source = .ok s') : Inv s' := by
  obtain ⟨hsrc, merged, hm, rfl⟩ := execCommitMerge_ok h
  have hid : merged.id = region.id := (mergeTarget_ok hm).1
  have hne : region.id ≠ source.id := fun he => (isSiblingRegions_eq_true.mp hsib).1 he.symm
  have hwr := delegate_wellFormed hinv hlive
  have hws := hinv.wellFormed _ _ hsrc
  refine ⟨(hinv.keyed.write _ _).write _ _,
    (hinv.wellFormed.write _ (boundLe_mergeTarget hsib hwr hws hm)).write _ hws, ?_⟩
  -- only the target and the source change owners
  have hout : ∀ id, id ∉ [region.id, source.id] →
      ((s.write .normal merged).write .tombstone source) id = s id := by
    intro id hid'
    simp only [List.mem_cons, List.not_mem_nil, or_false, not_or] at hid'
    simp [Store.write, hid', hid]
  refine tiling_of_local (by simp [hne]) (fun i hi => owns_congr (hout i hi)) (fun key => ?_)
    hinv.partitioned
  have hsrc_live : delegate s source.id = some source :=
    delegate_eq_some.mpr ⟨.merging, hsrc, by decide⟩
  have hmerged : delegate ((s.write .normal merged).write .tombstone source) region.id =
      some merged := by
    simp [hne, hid]
  have hsource : delegate ((s.write .normal merged).write .tombstone source) source.id = none := by
    simp
  simp only [List.countP_cons, List.countP_nil, owns_of_delegate hmerged,
    owns_of_delegate_none hsource, owns_of_delegate hlive, owns_of_delegate hsrc_live]
  have hsum := indicator_mergeTarget hsib hwr hws hm key
  simp only [Bool.false_eq_true, if_false] at hsum ⊢
  omega

/-- The region a commit merge changes is the target, at a version above both
the target's and the source's. -/
theorem execCommitMerge_versions {s s' : Store} {region source : Region}
    (h : execCommitMerge s region source = .ok s') :
    ∀ id st', s' id = some st' → (s id).map (·.region.range) ≠ some st'.region.range →
      source.regionEpoch.version < st'.region.regionEpoch.version ∧
        region.regionEpoch.version < st'.region.regionEpoch.version := by
  obtain ⟨hsrc, merged, hm, rfl⟩ := execCommitMerge_ok h
  obtain ⟨hid, hversion, -⟩ := mergeTarget_ok hm
  intro id st' hst hchanged
  unfold Store.write at hst
  split at hst
  · -- the source keeps its range
    rename_i hsid
    cases hst
    exact absurd (by rw [hsid, hsrc]; rfl) hchanged
  split at hst
  · cases hst
    rw [hversion]
    omega
  · exact absurd (by rw [hst]; rfl) hchanged

/-! ## Runs of commands -/

/-- What the cluster ensures of a command before it is proposed: a split's
new regions are fresh (PD allocates their ids), and a merge's source is a
sibling of the target (fsm/peer.rs:5693). -/
def Admissible (ctx : ApplyContext) : Command → Prop
  | .batchSplit regionId req => ∀ region, delegate ctx.engine regionId = some region → SplitFresh ctx region req
  | .prepareMerge _ => True
  | .commitMerge regionId source =>
    ∀ region, delegate ctx.engine regionId = some region → isSiblingRegions source region = true

/-- The regions a command derives new ranges from: the split region, or the
source and the target of a merge. -/
def derivedFrom (s : Store) : Command → List Region
  | .batchSplit regionId _ => (delegate s regionId).toList
  | .prepareMerge _ => []
  | .commitMerge regionId source => source :: (delegate s regionId).toList

/-- Every region whose range a command changes or creates has a version above
those of the regions it derives from. -/
def VersionsRaised (s : Store) (cmd : Command) (s' : Store) : Prop :=
  ∀ id st', s' id = some st' → (s id).map (·.region.range) ≠ some st'.region.range →
    ∀ p ∈ derivedFrom s cmd, p.regionEpoch.version < st'.region.regionEpoch.version

theorem applyCommand_ok {ctx ctx' : ApplyContext} {cmd : Command} (h : applyCommand ctx cmd = .ok ctx') :
    ∃ region, delegate ctx.engine cmd.regionId = some region ∧ execAdminCmd ctx region cmd = .ok ctx' := by
  unfold applyCommand at h
  split at h
  · cases h
  · exact ⟨_, ‹_›, h⟩

/-- A merge command changes the engine only. -/
theorem execAdminCmd_merge_ok {ctx ctx' : ApplyContext} {region source : Region} {regionId : Nat}
    (h : execAdminCmd ctx region (.commitMerge regionId source) = .ok ctx') :
    execCommitMerge ctx.engine region source = .ok ctx'.engine := by
  obtain ⟨engine, he, rfl⟩ := ExceptState.map_eq_ok h
  exact he

/-- An admissible command keeps the invariant. -/
theorem applyCommand_inv {ctx ctx' : ApplyContext} {cmd : Command} (hinv : Inv ctx.engine)
    (hadm : Admissible ctx cmd) (h : applyCommand ctx cmd = .ok ctx') : Inv ctx'.engine := by
  obtain ⟨region, hd, h⟩ := applyCommand_ok h
  have hlive : delegate ctx.engine region.id = some region := by rw [delegate_id hinv hd]; exact hd
  cases cmd with
  | batchSplit regionId req =>
    obtain ⟨⟨resp, ctx''⟩, hs, rfl⟩ := ExceptState.map_eq_ok h
    exact execBatchSplit_inv hinv hlive (hadm region hd) hs
  | prepareMerge regionId =>
    cases h
    exact execPrepareMerge_inv hinv hlive
  | commitMerge regionId source => exact execCommitMerge_inv hinv hlive (hadm region hd) (execAdminCmd_merge_ok h)

/-- An admissible command raises the version of every region whose range it
changes above the regions it derives from. -/
theorem applyCommand_versionsRaised {ctx ctx' : ApplyContext} {cmd : Command} (hinv : Inv ctx.engine)
    (hadm : Admissible ctx cmd) (h : applyCommand ctx cmd = .ok ctx') :
    VersionsRaised ctx.engine cmd ctx'.engine := by
  obtain ⟨region, hd, h⟩ := applyCommand_ok h
  have hlive : delegate ctx.engine region.id = some region := by rw [delegate_id hinv hd]; exact hd
  intro id st' hst hchanged p hp
  cases cmd with
  | batchSplit regionId req =>
    simp only [derivedFrom, Command.regionId] at hp hd
    rw [hd, Option.mem_toList, Option.some_inj] at hp
    subst hp
    obtain ⟨⟨resp, ctx''⟩, hs, rfl⟩ := ExceptState.map_eq_ok h
    exact execBatchSplit_versions hlive (hadm _ hd) hs id st' hst hchanged
  | prepareMerge regionId => exact absurd hp List.not_mem_nil
  | commitMerge regionId source =>
    simp only [derivedFrom, Command.regionId] at hp hd
    have hboth := execCommitMerge_versions (execAdminCmd_merge_ok h) id st' hst hchanged
    rw [hd] at hp
    rcases List.mem_cons.mp hp with rfl | hp
    · exact hboth.1
    · rw [Option.mem_toList, Option.some_inj] at hp
      subst hp
      exact hboth.2

/-- The apply contexts reached from `ctx₀` by admissible commands that apply. -/
inductive Reachable (ctx₀ : ApplyContext) : ApplyContext → Prop
  | init : Reachable ctx₀ ctx₀
  | step {ctx ctx' : ApplyContext} (cmd : Command) : Reachable ctx₀ ctx → Admissible ctx cmd →
      applyCommand ctx cmd = .ok ctx' → Reachable ctx₀ ctx'

theorem Reachable.inv {ctx₀ ctx : ApplyContext} (h₀ : Inv ctx₀.engine) (h : Reachable ctx₀ ctx) :
    Inv ctx.engine := by
  induction h with
  | init => exact h₀
  | step cmd _ hadm happ ih => exact applyCommand_inv ih hadm happ

/-- From region states under their ids, each starting at or below its end
and together partitioning the key space, every run of admissible batch
splits and merges keeps the live regions a partition of the key space, and
each command raises the version of every region whose range it changes above
the regions it derives from. -/
theorem regions_partition (ctx₀ : ApplyContext) (hkeyed : KeyedById ctx₀.engine)
    (hwf : WellFormed ctx₀.engine) (hpart : Partitioned ctx₀.engine) :
    (∀ ctx, Reachable ctx₀ ctx → Partitioned ctx.engine) ∧
      ∀ ctx cmd ctx', Reachable ctx₀ ctx → Admissible ctx cmd → applyCommand ctx cmd = .ok ctx' →
        VersionsRaised ctx.engine cmd ctx'.engine :=
  ⟨fun _ hs => (hs.inv ⟨hkeyed, hwf, hpart⟩).partitioned,
    fun _ _ _ hs hadm happ => applyCommand_versionsRaised (hs.inv ⟨hkeyed, hwf, hpart⟩) hadm happ⟩

/-- One region over the whole key space. -/
def wholeSpace : Store := fun id =>
  if id = 1 then some ⟨.normal, ⟨1, [], [], ⟨1, 1⟩, [⟨1, 1⟩]⟩⟩ else none

theorem inv_wholeSpace : Inv wholeSpace := by
  refine ⟨?_, ?_, ?_⟩
  · intro id st h
    unfold wholeSpace at h
    split at h
    · cases h
      exact (‹id = 1›).symm
    · cases h
  · intro id st h
    unfold wholeSpace at h
    split at h
    · cases h
      trivial
    · cases h
  · intro key
    refine ⟨1, by simp [owns, delegate, wholeSpace, checkKeyInRegion, List.nil_le], fun j hj => ?_⟩
    by_contra hne
    simp [owns, delegate, wholeSpace, hne] at hj

theorem regions_partition_wholeSpace :
    KeyedById wholeSpace ∧ WellFormed wholeSpace ∧ Partitioned wholeSpace ∧
      (∀ ctx, Reachable ⟨1, wholeSpace, fun _ => none⟩ ctx → Partitioned ctx.engine) ∧
      ∀ ctx cmd ctx', Reachable ⟨1, wholeSpace, fun _ => none⟩ ctx → Admissible ctx cmd →
        applyCommand ctx cmd = .ok ctx' → VersionsRaised ctx.engine cmd ctx'.engine :=
  ⟨inv_wholeSpace.keyed, inv_wholeSpace.wellFormed, inv_wholeSpace.partitioned,
    regions_partition ⟨1, wholeSpace, fun _ => none⟩ inv_wholeSpace.keyed inv_wholeSpace.wellFormed
      inv_wholeSpace.partitioned⟩

/-- Two regions meeting at `m`. -/
def twoRegions : Store := fun id =>
  if id = 1 then some ⟨.normal, ⟨1, [], [0x6d], ⟨1, 1⟩, [⟨1, 1⟩]⟩⟩
  else if id = 2 then some ⟨.normal, ⟨2, [0x6d], [], ⟨1, 1⟩, [⟨2, 1⟩]⟩⟩
  else none

theorem inv_twoRegions : Inv twoRegions := by
  refine ⟨?_, ?_, ?_⟩
  · intro id st h
    unfold twoRegions at h
    split_ifs at h with h₁ h₂
    · cases h
      exact h₁.symm
    · cases h
      exact h₂.symm
  · intro id st h
    unfold twoRegions at h
    split_ifs at h
    · cases h
      exact List.nil_le _
    · cases h
      trivial
  · intro key
    by_cases hk : key < [0x6d]
    · refine ⟨1, by simp [owns, delegate, twoRegions, checkKeyInRegion, hk, List.nil_le],
        fun j hj => ?_⟩
      by_contra hne
      by_cases h₂ : j = 2
      · subst h₂
        simp [owns, delegate, twoRegions, checkKeyInRegion] at hj
        exact Std.not_le.mpr hk hj
      · simp [owns, delegate, twoRegions, hne, h₂] at hj
    · refine ⟨2, by simpa [owns, delegate, twoRegions, checkKeyInRegion] using Std.not_lt.mp hk,
        fun j hj => ?_⟩
      by_contra hne
      by_cases h₁ : j = 1
      · subst h₁
        simp [owns, delegate, twoRegions, checkKeyInRegion, hk] at hj
      · simp [owns, delegate, twoRegions, hne, h₁] at hj

/-- A split of region 1 at `g` that goes through from a partitioned store
leaves `g` without a region when the new region `[g, …)` is not written. First
its id 2 is taken: region 2 has a state. Then the id is free, but the store is
creating another peer (9) of region 2 from a raft message, not the peer 3 the
split makes. -/
theorem batchSplit_skipped_region_unowned :
    Inv twoRegions ∧
      (∃ ctx', applyCommand ⟨1, twoRegions, fun _ => none⟩
          (.batchSplit 1 ⟨[⟨[0x67], 2, [3]⟩], false⟩) = .ok ctx' ∧
        ∀ id, owns ctx'.engine id [0x67] = false) ∧
      Inv wholeSpace ∧ wholeSpace 2 = none ∧
      ∃ ctx', applyCommand ⟨1, wholeSpace, fun id => if id = 2 then some (9, false) else none⟩
          (.batchSplit 1 ⟨[⟨[0x67], 2, [3]⟩], false⟩) = .ok ctx' ∧
        ∀ id, owns ctx'.engine id [0x67] = false := by
  refine ⟨inv_twoRegions, ⟨_, rfl, fun id => ?_⟩, inv_wholeSpace, rfl, ⟨_, rfl, fun id => ?_⟩⟩
  · by_cases h₁ : id = 1
    · subst h₁
      decide
    · by_cases h₂ : id = 2
      · subst h₂
        decide
      · simp [owns, delegate, writeSplit, batchSplitRegions,
          splitNewRegions, writeNewRegion, Store.write, twoRegions, h₁, h₂]
  · by_cases h₁ : id = 1
    · subst h₁
      decide
    · by_cases h₂ : id = 2
      · subst h₂
        decide
      · simp [owns, delegate, writeSplit, batchSplitRegions,
          splitNewRegions, writeNewRegion, Store.write, wholeSpace, ite_apply, h₁, h₂]

end Tikv.Raftstore
