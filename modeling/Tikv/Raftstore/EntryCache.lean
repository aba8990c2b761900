import Tikv.Codec.Number
import Tikv.Lib.ExceptState
import Tikv.Lib.Trace
import Tikv.Lib.Window

/-!
# The raft entry cache (`raftstore::store::entry_storage::EntryCache`)

A peer keeps the tail of its raft log in memory: a deque of entries with
consecutive indexes, the index persisted so far, and the ranges of committed
entries sent to the apply threads (`trace`). `append` truncates a
conflicting suffix and pushes the new entries, `compact_to` drops a persisted
prefix (no further than the persisted index, and past every traced range it
frees), `entry` reads one entry and `fetch_entries_to` copies a run of
entries within a size budget.

The deque is a list. Entry sizes are `compute_size` of the protobuf
message, generated outside this repository: a parameter `size`. The memory
accounting (`bytes_capacity`, the capacity shrinking, the metrics and the
entries a trace record holds) is left out, so `compact_to` returns the cache
and not the bytes it freed.

Results:
* `List.IsWindow` (in `Tikv.Lib.Window`): the cache holds consecutive
  indexes, and every cut by index is a cut by position.
* `appendImpl_ok`, `appendImpl_exists`: a successful append keeps the
  entries below the first new index and pushes the new ones; it succeeds
  whenever the new entries start at most one past the cache and no traced
  range reaches them.
* `compactTo_cache`: compaction keeps the entries from the bound on, where
  the bound is the requested index raised past the freed traced ranges and
  capped at one past the persisted index.
* `fetchEntriesTo_eq`: a fetch of cached entries returns them in order while
  the size budget allows, and always the first (`takeWithin`).
* `entryCache_window`: all of these hold at every state a run reaches.
-/

namespace Tikv.Raftstore
open Tikv.Codec

/-- mirrors eraftpb `Entry`: the index the cache reads, with the term and
data it carries. -/
structure Entry where
  index : Nat
  term : Nat
  data : Bytes
  deriving DecidableEq, Repr

/-- mirrors components/raftstore/src/store/entry_storage.rs:53-58
(`CachedEntries`): the range of committed entries sent to apply. -/
structure CachedEntries where
  rangeStart : Nat
  rangeEnd : Nat
  deriving DecidableEq, Repr

/-- mirrors components/raftstore/src/store/entry_storage.rs:61-71 (`CachedEntries::new`) -/
def CachedEntries.new (entries : List Entry) : Except String CachedEntries :=
  match entries.head?, entries.getLast? with
  | some first, some last => .ok ⟨first.index, last.index + 1⟩
  | _, _ => .error "assertion failed: !entries.is_empty()"

/-- mirrors components/raftstore/src/store/entry_storage.rs:91-101 (`EntryCache`) -/
structure EntryCache where
  persisted : Nat
  cache : List Entry
  trace : List CachedEntries
  deriving DecidableEq, Repr

namespace EntryCache

/-- mirrors components/raftstore/src/store/entry_storage.rs:370-383 (`Default`) -/
def default : EntryCache := ⟨0, [], []⟩

/-- mirrors components/raftstore/src/store/entry_storage.rs:104-106 (`first_index`) -/
def firstIndex (c : EntryCache) : Option Nat := c.cache.head?.map (·.index)

/-- The `take_while` of `fetch_entries_to` over the cache from `start_idx`:
each entry must have the index its position gives, and is taken while the
fetched size allows. Returns `end_idx` and the fetched size. -/
def fetchTakeWhile (size : Entry → Nat) (cacheLow limitIdx maxSize : Nat) :
    List Entry → Nat → Nat → Except String (Nat × Nat)
  | [], endIdx, fetchedSize => .ok (endIdx, fetchedSize)
  | e :: es, endIdx, fetchedSize =>
    let curIdx := endIdx + cacheLow
    if e.index ≠ curIdx then .error "assertion `left == right` failed"
    else
      let m := size e
      let fetchedSize := fetchedSize + m
      if fetchedSize = m then
        if fetchedSize ≤ maxSize ∧ endIdx + 1 < limitIdx then
          fetchTakeWhile size cacheLow limitIdx maxSize es (endIdx + 1) fetchedSize
        else .ok (endIdx + 1, fetchedSize)
      else if fetchedSize ≤ maxSize then
        if endIdx + 1 < limitIdx then
          fetchTakeWhile size cacheLow limitIdx maxSize es (endIdx + 1) fetchedSize
        else .ok (endIdx + 1, fetchedSize)
      else .ok (endIdx, fetchedSize)

/-- mirrors components/raftstore/src/store/entry_storage.rs:108-150
(`fetch_entries_to`); `slices_in_range` of the deque is one slice of the list. -/
def fetchEntriesTo (size : Entry → Nat) (c : EntryCache) (begin end_ fetchedSize maxSize : Nat)
    (ents : List Entry) : Except String (List Entry) :=
  if begin ≥ end_ then .ok ents
  else
    match c.cache.head? with
    | none => .error "assertion failed: !self.cache.is_empty()"
    | some front =>
      let cacheLow := front.index
      if begin < cacheLow then .error "called `Option::unwrap()` on a `None` value"
      else
        let startIdx := begin - cacheLow
        let limitIdx := end_ - cacheLow
        match fetchTakeWhile size cacheLow limitIdx maxSize (c.cache.drop startIdx) startIdx
            fetchedSize with
        | .error e => .error e
        | .ok (endIdx, fetchedSize) =>
          if endIdx = limitIdx ∨ fetchedSize > maxSize then
            .ok (ents ++ (c.cache.drop startIdx).take (endIdx - startIdx))
          else .error "assertion failed: end_idx == limit_idx || fetched_size > max_size"

/-- What a fetch takes from a run of entries, having fetched `fetched` bytes:
each entry while the total stays within `maxSize`, and any entry while
nothing has been fetched. -/
def takeWithin (size : Entry → Nat) (maxSize : Nat) : Nat → List Entry → List Entry
  | _, [] => []
  | fetched, e :: es =>
    if fetched = 0 ∨ fetched + size e ≤ maxSize then e :: takeWithin size maxSize (fetched + size e) es
    else []

/-- mirrors components/raftstore/src/store/entry_storage.rs:184-222 (`append_impl`) -/
def appendImpl (c : EntryCache) (regionId peerId : Nat) (entries : List Entry) :
    Except String EntryCache := do
  let cache ← (match c.cache.getLast? with
    | none => .ok c.cache
    | some cacheLast =>
      match entries.head? with
      | none => .error "index out of bounds"
      | some first =>
        let cacheLastIndex := cacheLast.index
        let firstIndex := first.index
        if cacheLastIndex ≥ firstIndex then
          -- `checked_sub(..).unwrap_or_default()`
          let truncateTo := c.cache.length - (cacheLastIndex - firstIndex + 1)
          match c.cache[truncateTo]? with
          | none => .error "index out of bounds"
          | some truncEntry =>
            let truncToIdx := truncEntry.index
            match c.trace.getLast? with
            | some cached =>
              if cached.rangeEnd - 1 < truncToIdx then .ok (c.cache.take truncateTo)
              else .error "assertion failed: cached_last < trunc_to_idx"
            | none => .ok (c.cache.take truncateTo)
        else if cacheLastIndex + 1 < firstIndex then
          .error ("[region " ++ toString regionId ++ "] " ++ toString peerId ++
            " unexpected hole: " ++ toString cacheLastIndex ++ " < " ++ toString firstIndex)
        else .ok c.cache)
  pure { c with cache := cache ++ entries }

/-- mirrors components/raftstore/src/store/entry_storage.rs:152-162 (`append`) -/
def append (c : EntryCache) (regionId peerId : Nat) (entries : List Entry) :
    Except String EntryCache :=
  if entries ≠ [] then c.appendImpl regionId peerId entries else .ok c

/-- mirrors components/raftstore/src/store/entry_storage.rs:164-182 (`prepend`) -/
def prepend (c : EntryCache) (entries : List Entry) : EntryCache :=
  { c with cache := entries ++ c.cache }

/-- mirrors components/raftstore/src/store/entry_storage.rs:224-231 (`entry`) -/
def entry (c : EntryCache) (idx : Nat) : Except String (Option Entry) :=
  match c.cache.head? with
  | none => .ok none
  | some front =>
    if idx ≥ front.index then
      match c.cache[idx - front.index]? with
      | some e => .ok (some e)
      | none => .error "Out of bounds access"
    else .ok none

/-- The trace loop of `compact_to`: pop the ranges that start below `idx`
and are persisted, raising `idx` past each. -/
def popTrace (persisted : Nat) : List CachedEntries → Nat → List CachedEntries × Nat
  | [], idx => ([], idx)
  | cached :: trace, idx =>
    if cached.rangeStart ≥ idx ∨ cached.rangeEnd > persisted + 1 then (cached :: trace, idx)
    else popTrace persisted trace (max cached.rangeEnd idx)

/-- mirrors components/raftstore/src/store/entry_storage.rs:234-288 (`compact_to`):
an empty cache reads its first index as `u64::MAX`, above every bound. -/
def compactTo (c : EntryCache) (idx : Nat) : EntryCache :=
  let idx := if idx > c.persisted + 1 then c.persisted + 1 else idx
  let (trace, idx) := popTrace c.persisted c.trace idx
  match c.cache.head?, c.cache.getLast? with
  | some first, some last =>
    if first.index ≥ idx then { c with trace }
    else
      let compactTo := min (last.index + 1) idx - first.index
      { c with trace, cache := c.cache.drop compactTo }
  | _, _ => { c with trace }

/-- mirrors components/raftstore/src/store/entry_storage.rs:335-352 (`trace_cached_entries`) -/
def traceCachedEntries (c : EntryCache) (entries : CachedEntries) : EntryCache :=
  { c with trace := c.trace ++ [entries] }

/-- mirrors components/raftstore/src/store/entry_storage.rs:365-367 (`update_persisted`) -/
def updatePersisted (c : EntryCache) (persisted : Nat) : EntryCache :=
  { c with persisted }

/-! ## Append -/

variable {c c' : EntryCache} {lo : Nat}

theorem append_cons {regionId peerId : Nat} {e : Entry} {es : List Entry} :
    c.append regionId peerId (e :: es) = c.appendImpl regionId peerId (e :: es) :=
  if_pos (List.cons_ne_nil e es)

/-- A successful append keeps the entries below the first new index and
pushes the new ones; the new entries started at most one past the cache. -/
theorem appendImpl_ok {regionId peerId : Nat} {e : Entry} {es : List Entry}
    (hw : c.cache.IsWindow Entry.index lo) (h : c.appendImpl regionId peerId (e :: es) = .ok c') :
    c' = { c with cache := c.cache.filter (fun e' => e'.index < e.index) ++ e :: es } ∧
      ∀ last ∈ c.cache.getLast?, e.index ≤ last.index + 1 := by
  obtain ⟨cache, hcache, h⟩ := ExceptState.bind_eq_ok h
  cases h
  rw [hw.filter_lt]
  cases hl : c.cache.getLast? with
  | none =>
    rw [hl] at hcache
    cases hcache
    simp [List.getLast?_eq_none_iff.mp hl]
  | some last =>
    have hlast := hw.key_of_getLast? hl
    simp only [hl, List.head?_cons] at hcache
    obtain ⟨rfl, hle⟩ : cache = c.cache.take (e.index - lo) ∧ e.index ≤ last.index + 1 := by
      split at hcache
      · -- the conflicting suffix from `first_index` on is cut
        rw [show c.cache.length - (last.index - e.index + 1) = e.index - lo by omega] at hcache
        refine ⟨?_, by omega⟩
        repeat' split at hcache
        all_goals cases hcache
        all_goals rfl
      · split at hcache
        · cases hcache
        · cases hcache
          exact ⟨by rw [show e.index - lo = c.cache.length by omega, List.take_length], by omega⟩
    exact ⟨rfl, fun l hl' => by cases hl'; exact hle⟩

/-- An append succeeds when the new entries start at most one past the cache
and the last traced range ends below them. -/
theorem appendImpl_exists {regionId peerId : Nat} {e : Entry} {es : List Entry}
    (hw : c.cache.IsWindow Entry.index lo) (hle : ∀ last ∈ c.cache.getLast?, e.index ≤ last.index + 1)
    (htr : ∀ r ∈ c.trace.getLast?, r.rangeEnd - 1 < e.index) :
    ∃ c', c.appendImpl regionId peerId (e :: es) = .ok c' := by
  suffices ∃ cache, (c.appendImpl regionId peerId (e :: es)) =
      .ok { c with cache := cache ++ e :: es } from
    let ⟨cache, h⟩ := this; ⟨_, h⟩
  cases hl : c.cache.getLast? with
  | none => exact ⟨c.cache, by simp [appendImpl, hl, bind, Except.bind, pure, Except.pure]⟩
  | some last =>
    have hlast := hw.key_of_getLast? hl
    have hlast' := hle last hl
    by_cases hge : last.index ≥ e.index
    · -- the entry at `truncate_to` has the first new index, or the cache's first
      have hpos : 0 < c.cache.length :=
        List.length_pos_iff.mpr fun h => by simp [h] at hl
      have htrunc : c.cache.length - (last.index - e.index + 1) < c.cache.length := by omega
      have hkey := hw.key_getElem _ htrunc
      cases ht : c.trace.getLast? with
      | none =>
        exact ⟨c.cache.take (c.cache.length - (last.index - e.index + 1)), by
          simp [appendImpl, hl, hge, ht, List.getElem?_eq_getElem htrunc, bind,
          Except.bind, pure, Except.pure]⟩
      | some cached =>
        have hcached := htr cached ht
        exact ⟨c.cache.take (c.cache.length - (last.index - e.index + 1)), by
          simp [appendImpl, hl, hge, ht, List.getElem?_eq_getElem htrunc,
          show cached.rangeEnd - 1 < c.cache[c.cache.length - (last.index - e.index + 1)].index by
            omega, bind, Except.bind, pure, Except.pure]⟩
    · exact ⟨c.cache, by simp [appendImpl, hl, hge, show ¬ last.index + 1 < e.index by omega,
        bind, Except.bind, pure, Except.pure]⟩

/-- Consecutive new entries that start at most one past the cache leave it
consecutive. -/
theorem isWindow_append {e : Entry} {es : List Entry} (hw : c.cache.IsWindow Entry.index lo)
    (hes : (e :: es).IsWindow Entry.index e.index)
    (hle : ∀ last ∈ c.cache.getLast?, e.index ≤ last.index + 1) :
    ∃ lo', (c.cache.filter (fun e' => e'.index < e.index) ++ e :: es).IsWindow Entry.index lo' := by
  rw [hw.filter_lt]
  by_cases hnil : c.cache.take (e.index - lo) = []
  · exact ⟨e.index, by rw [hnil, List.nil_append]; exact hes⟩
  · -- the kept prefix is not empty, so the cache was not and the new entries start past `lo`
    have hne : c.cache ≠ [] := fun h => hnil (by simp [h])
    obtain ⟨last, hl⟩ := Option.isSome_iff_exists.mp (List.getLast?_isSome.mpr hne)
    have hlast := hw.key_of_getLast? hl
    have hf := hle last hl
    have hlen : (c.cache.take (e.index - lo)).length = e.index - lo := by
      rw [List.length_take]
      omega
    have hpos : 0 < e.index - lo := by
      rw [← hlen]
      exact List.length_pos_iff.mpr hnil
    refine ⟨lo, List.isWindow_append.mpr ⟨hw.take _, ?_⟩⟩
    rw [hlen, show lo + (e.index - lo) = e.index by omega]
    exact hes

/-! ## Reads -/

/-- `entry` finds every cached entry by its index. -/
theorem entry_of_mem {e : Entry} (hw : c.cache.IsWindow Entry.index lo) (he : e ∈ c.cache) :
    c.entry e.index = .ok (some e) := by
  obtain ⟨front, hf⟩ := Option.isSome_iff_exists.mp
    (List.isSome_head?.mpr (List.ne_nil_of_mem he))
  have hfront := hw.key_of_head? hf
  have hle := (hw.key_mem he).1
  simp [entry, hf, hfront, hle, hw.getElem?_of_mem he]

theorem takeWithin_of_lt {size : Entry → Nat} {maxSize fetched : Nat} (h : maxSize < fetched)
    (l : List Entry) : takeWithin size maxSize fetched l = [] := by
  cases l with
  | nil => rfl
  | cons e es => exact if_neg (by omega)

theorem takeWithin_prefix (size : Entry → Nat) (maxSize : Nat) :
    ∀ (fetched : Nat) (l : List Entry),
      l.take (takeWithin size maxSize fetched l).length = takeWithin size maxSize fetched l
  | _, [] => rfl
  | fetched, e :: es => by
    unfold takeWithin
    split
    · rw [List.length_cons, List.take_succ_cons, takeWithin_prefix]
    · rfl

theorem length_takeWithin_le (size : Entry → Nat) (maxSize : Nat) :
    ∀ (fetched : Nat) (l : List Entry), (takeWithin size maxSize fetched l).length ≤ l.length
  | _, [] => le_rfl
  | fetched, e :: es => by
    unfold takeWithin
    split
    · simpa using length_takeWithin_le size maxSize _ es
    · simp

/-- The loop of `fetch_entries_to` over consecutive entries: it stops at the
limit or when the budget is spent, having taken what `takeWithin` takes. -/
theorem fetchTakeWhile_eq (size : Entry → Nat) (cacheLow limitIdx maxSize : Nat) :
    ∀ (l : List Entry) (endIdx fetched : Nat), l.IsWindow Entry.index (cacheLow + endIdx) →
      endIdx < limitIdx → limitIdx - endIdx ≤ l.length →
      ∃ fetched', fetchTakeWhile size cacheLow limitIdx maxSize l endIdx fetched =
        .ok (endIdx + (takeWithin size maxSize fetched (l.take (limitIdx - endIdx))).length,
          fetched') ∧
        (endIdx + (takeWithin size maxSize fetched (l.take (limitIdx - endIdx))).length = limitIdx ∨
          maxSize < fetched')
  | [], _, _, _, hlt, hlen => absurd hlen (by simp only [List.length_nil]; omega)
  | e :: es, endIdx, fetched, hw, hlt, hlen => by
    obtain ⟨he, hes⟩ := List.isWindow_cons.mp hw
    have hes' : es.IsWindow Entry.index (cacheLow + (endIdx + 1)) := by
      rwa [← Nat.add_assoc]
    have htake : (e :: es).take (limitIdx - endIdx) = e :: es.take (limitIdx - (endIdx + 1)) := by
      rw [show limitIdx - endIdx = limitIdx - (endIdx + 1) + 1 by omega, List.take_succ_cons]
    have hlen' : limitIdx - (endIdx + 1) ≤ es.length := by
      simp only [List.length_cons] at hlen
      omega
    rw [htake]
    simp only [fetchTakeWhile, show ¬ e.index ≠ endIdx + cacheLow by omega, if_false]
    by_cases htaken : fetched = 0 ∨ fetched + size e ≤ maxSize
    · -- the entry is taken; the loop goes on while the budget and the limit allow
      rw [takeWithin, if_pos htaken, List.length_cons]
      by_cases hnext : (fetched + size e ≤ maxSize) ∧ endIdx + 1 < limitIdx
      · obtain ⟨f', hf', hdone⟩ :=
          fetchTakeWhile_eq size cacheLow limitIdx maxSize es (endIdx + 1) (fetched + size e) hes'
            hnext.2 hlen'
        refine ⟨f', ?_, by omega⟩
        rw [← Nat.add_assoc, Nat.add_right_comm endIdx, ← hf']
        by_cases h0 : fetched = 0
        · simp [h0, hnext.2, show size e ≤ maxSize by simpa [h0] using hnext.1]
        · simp [h0, hnext.1, hnext.2]
      · refine ⟨fetched + size e, ?_, ?_⟩
        · -- the loop stops right after this entry
          have hrest : takeWithin size maxSize (fetched + size e) (es.take (limitIdx - (endIdx + 1))) = [] := by
            by_cases hlim : endIdx + 1 < limitIdx
            · exact takeWithin_of_lt (by omega) _
            · rw [show limitIdx - (endIdx + 1) = 0 by omega, List.take_zero]
              rfl
          rw [hrest, List.length_nil, Nat.add_zero]
          by_cases h0 : fetched = 0
          · have hstop : ¬ (size e ≤ maxSize ∧ endIdx + 1 < limitIdx) := by simpa [h0] using hnext
            simp [h0, hstop]
          · have hfit : fetched + size e ≤ maxSize := htaken.resolve_left h0
            have hlim : ¬ endIdx + 1 < limitIdx := fun h => hnext ⟨hfit, h⟩
            simp [h0, hfit, hlim]
        · by_cases hlim : endIdx + 1 < limitIdx
          · exact .inr (by omega)
          · left
            rw [show limitIdx - (endIdx + 1) = 0 by omega, List.take_zero]
            simp [takeWithin]
            omega
    · -- the entry would spend the budget past its end: nothing more is taken
      rw [takeWithin, if_neg htaken]
      refine ⟨fetched + size e, ?_, .inr (by omega)⟩
      simp [(not_or.mp htaken).1, (not_or.mp htaken).2]

/-- A fetch of cached entries `[begin, end)` appends them in order while the
budget allows, and always the first. -/
theorem fetchEntriesTo_eq (size : Entry → Nat) {begin end_ maxSize : Nat} {ents : List Entry}
    (hw : c.cache.IsWindow Entry.index lo) (hlt : begin < end_) (hb : lo ≤ begin)
    (he : end_ ≤ lo + c.cache.length) :
    c.fetchEntriesTo size begin end_ 0 maxSize ents =
      .ok (ents ++ takeWithin size maxSize 0
        (c.cache.filter fun e => begin ≤ e.index ∧ e.index < end_)) := by
  have hpos : c.cache ≠ [] := fun h => by simp [h] at he; omega
  obtain ⟨front, hf⟩ := Option.isSome_iff_exists.mp (List.isSome_head?.mpr hpos)
  obtain rfl : front.index = lo := hw.key_of_head? hf
  rw [hw.filter_range hb]
  -- the loop runs over the cache from position `begin - cache_low`, up to `end`
  obtain ⟨f', hloop, hdone⟩ := fetchTakeWhile_eq size front.index (end_ - front.index) maxSize
    (c.cache.drop (begin - front.index)) (begin - front.index) 0 (hw.drop _) (by omega)
    (by simp only [List.length_drop]; omega)
  rw [show end_ - front.index - (begin - front.index) = end_ - begin by omega] at hloop hdone
  have hle : (takeWithin size maxSize 0 ((c.cache.drop (begin - front.index)).take (end_ - begin))).length
      ≤ end_ - begin :=
    (length_takeWithin_le size maxSize 0 _).trans (List.length_take_le _ _)
  have htaken := takeWithin_prefix size maxSize 0 ((c.cache.drop (begin - front.index)).take (end_ - begin))
  rw [List.take_take, min_eq_left hle] at htaken
  simp only [fetchEntriesTo, show ¬ begin ≥ end_ by omega, if_false, hf,
    show ¬ begin < front.index by omega, hloop]
  rw [if_pos (by omega), Nat.add_sub_cancel_left, htaken]

/-! ## Compaction -/

/-- The trace loop pops a prefix of persisted ranges and raises the index
past each. -/
theorem popTrace_spec (persisted : Nat) :
    ∀ (trace : List CachedEntries) (idx : Nat), ∃ popped,
      trace = popped ++ (popTrace persisted trace idx).1 ∧
      (∀ r ∈ popped, r.rangeEnd ≤ persisted + 1) ∧
      (popTrace persisted trace idx).2 = popped.foldl (fun m r => max m r.rangeEnd) idx
  | [], idx => ⟨[], rfl, by simp, rfl⟩
  | cached :: trace, idx => by
    by_cases hstop : cached.rangeStart ≥ idx ∨ cached.rangeEnd > persisted + 1
    · exact ⟨[], by simp [popTrace, hstop], by simp, by simp [popTrace, hstop]⟩
    · obtain ⟨popped, htrace, hle, hidx⟩ := popTrace_spec persisted trace (max cached.rangeEnd idx)
      refine ⟨cached :: popped, ?_, ?_, ?_⟩
      · simp only [popTrace, hstop, if_false, List.cons_append]
        rw [← htrace]
      · intro r hr
        rcases List.mem_cons.mp hr with rfl | hr
        · omega
        · exact hle r hr
      · simp only [popTrace, hstop, if_false, List.foldl_cons]
        rw [hidx, max_comm]

/-- Capping the index first or the raised index after is the same, as every
popped range ends within the cap. -/
theorem foldl_max_min {q : Nat} :
    ∀ (popped : List CachedEntries) (idx : Nat), (∀ r ∈ popped, r.rangeEnd ≤ q) →
      popped.foldl (fun m r => max m r.rangeEnd) (min idx q) =
        min (popped.foldl (fun m r => max m r.rangeEnd) idx) q
  | [], _, _ => rfl
  | r :: popped, idx, hle => by
    have hr := hle r (List.mem_cons_self ..)
    simp only [List.foldl_cons]
    rw [show max (min idx q) r.rangeEnd = min (max idx r.rangeEnd) q by omega]
    exact foldl_max_min popped _ fun r' hr' => hle r' (List.mem_cons_of_mem _ hr')

/-- Compaction pops the freed traced ranges and keeps the entries from the
bound on. -/
theorem compactTo_eq (hw : c.cache.IsWindow Entry.index lo) (idx : Nat) :
    c.compactTo idx = { c with
      trace := (popTrace c.persisted c.trace (min idx (c.persisted + 1))).1
      cache := c.cache.filter fun e =>
        (popTrace c.persisted c.trace (min idx (c.persisted + 1))).2 ≤ e.index } := by
  rw [hw.filter_ge]
  have hcap : (if idx > c.persisted + 1 then c.persisted + 1 else idx) = min idx (c.persisted + 1) := by
    split <;> omega
  simp only [compactTo, hcap]
  cases hf : c.cache.head? with
  | none =>
    rw [List.head?_eq_none_iff.mp hf]
    simp
  | some first =>
    have hfirst := hw.key_of_head? hf
    obtain ⟨last, hl⟩ := Option.isSome_iff_exists.mp
      (List.getLast?_isSome.mpr fun h : c.cache = [] => by simp [h] at hf)
    have hlast := hw.key_of_getLast? hl
    simp only [hl]
    split
    · rw [show (popTrace c.persisted c.trace (min idx (c.persisted + 1))).2 - lo = 0 by omega,
        List.drop_zero]
    · -- dropping past the last entry empties the cache either way
      by_cases hb : (popTrace c.persisted c.trace (min idx (c.persisted + 1))).2 ≤ last.index + 1
      · rw [min_eq_right hb, hfirst]
      · rw [List.drop_eq_nil_of_le (by rw [hfirst]; omega),
          List.drop_eq_nil_of_le (by omega)]

end EntryCache

/-- The calls that change an entry cache. -/
inductive EntryCacheCall where
  | append (entries : List Entry)
  | compactTo (idx : Nat)
  | updatePersisted (persisted : Nat)
  | traceCachedEntries (entries : List Entry)

/-- One call on the cache of peer `peerId` of region `regionId`; a panic ends
the run. -/
def EntryCache.step (regionId peerId : Nat) (c : EntryCache) : EntryCacheCall → Except String EntryCache
  | .append entries => c.append regionId peerId entries
  | .compactTo idx => .ok (c.compactTo idx)
  | .updatePersisted persisted => .ok (c.updatePersisted persisted)
  | .traceCachedEntries entries => (CachedEntries.new entries).map c.traceCachedEntries

namespace EntryCache

variable {c c' : EntryCache}

/-- Every call keeps the cache consecutive, when appended entries are. -/
theorem window_step {regionId peerId : Nat} {call : EntryCacheCall}
    (hw : ∃ lo, c.cache.IsWindow Entry.index lo)
    (hcall : ∀ es, call = .append es → ∃ lo, es.IsWindow Entry.index lo)
    (hs : c.step regionId peerId call = .ok c') : ∃ lo, c'.cache.IsWindow Entry.index lo := by
  obtain ⟨lo, hw⟩ := hw
  cases call with
  | append entries =>
    cases entries with
    | nil =>
      cases hs
      exact ⟨lo, hw⟩
    | cons e es =>
      obtain ⟨lo', hes⟩ := hcall _ rfl
      obtain rfl : e.index = lo' := (List.isWindow_cons.mp hes).1
      have hs' : c.appendImpl regionId peerId (e :: es) = .ok c' := append_cons.symm.trans hs
      obtain ⟨rfl, hle⟩ := appendImpl_ok hw hs'
      exact isWindow_append hw hes hle
  | compactTo idx =>
    cases hs
    rw [compactTo_eq hw, hw.filter_ge]
    exact ⟨_, hw.drop _⟩
  | updatePersisted persisted =>
    cases hs
    exact ⟨lo, hw⟩
  | traceCachedEntries entries =>
    obtain ⟨r, -, rfl⟩ := ExceptState.map_eq_ok hs
    exact ⟨lo, hw⟩

/-- Every state a run reaches holds consecutive entries, when every appended
batch is consecutive. -/
theorem window_run {regionId peerId : Nat} {calls : List EntryCacheCall}
    (hcalls : ∀ es, EntryCacheCall.append es ∈ calls → ∃ lo, es.IsWindow Entry.index lo)
    (h : Trace.run (EntryCache.step regionId peerId) EntryCache.default calls = .ok c) :
    ∃ lo, c.cache.IsWindow Entry.index lo := by
  -- the run's hypothesis on appended batches is carried along its prefixes
  refine Trace.run_induction (P := fun c calls =>
      (∀ es, EntryCacheCall.append es ∈ calls → ∃ lo, es.IsWindow Entry.index lo) →
        ∃ lo, c.cache.IsWindow Entry.index lo)
    (fun _ => ⟨0, List.isWindow_nil⟩) ?_ h hcalls
  intro t pre call t' ih hs hpre
  exact window_step (ih fun es hes => hpre es (List.mem_append_left _ hes))
    (fun es hes => hpre es (by simp [hes])) hs

end EntryCache

/-! ## The cache a run reaches -/

/-- What the cache guarantees at a state it reaches. -/
structure CacheWindow (size : Entry → Nat) (regionId peerId : Nat) (c : EntryCache) : Prop where
  /-- The cached entries have consecutive indexes. -/
  consecutive : ∃ lo, c.cache.IsWindow Entry.index lo
  /-- An append keeps the entries below its first index and pushes its own. -/
  append_eq : ∀ e es c', c.append regionId peerId (e :: es) = .ok c' →
    c'.cache = c.cache.filter (fun e' => e'.index < e.index) ++ e :: es
  /-- An append that starts at most one past the cache, above the last traced
  range, succeeds. -/
  append_ok : ∀ e es, (∀ last ∈ c.cache.getLast?, e.index ≤ last.index + 1) →
    (∀ r ∈ c.trace.getLast?, r.rangeEnd - 1 < e.index) →
    ∃ c', c.append regionId peerId (e :: es) = .ok c'
  /-- Compaction pops persisted traced ranges and removes the prefix of
  entries below the bound: the index raised past the popped ranges, capped
  one past the persisted index. -/
  compact : ∀ idx, ∃ popped pre, c.trace = popped ++ (c.compactTo idx).trace ∧
    (∀ r ∈ popped, r.rangeEnd ≤ c.persisted + 1) ∧
    c.cache = pre ++ (c.compactTo idx).cache ∧ (∀ e ∈ pre, e.index ≤ c.persisted) ∧
    (c.compactTo idx).cache = c.cache.filter fun e =>
      min (popped.foldl (fun m r => max m r.rangeEnd) idx) (c.persisted + 1) ≤ e.index
  /-- Every cached entry is found by its index. -/
  entry_eq : ∀ e ∈ c.cache, c.entry e.index = .ok (some e)
  /-- A fetch of cached `[begin, end)` appends those entries in order while
  the budget allows, and always the first. -/
  fetch_eq : ∀ begin end_ maxSize ents, begin < end_ → (∃ e ∈ c.cache, e.index = begin) →
    (∃ e ∈ c.cache, e.index + 1 = end_) →
    c.fetchEntriesTo size begin end_ 0 maxSize ents =
      .ok (ents ++ EntryCache.takeWithin size maxSize 0
        (c.cache.filter fun e => begin ≤ e.index ∧ e.index < end_))

namespace EntryCache

variable {c : EntryCache} {lo : Nat}

theorem compact_of_window (hw : c.cache.IsWindow Entry.index lo) (idx : Nat) :
    ∃ popped pre, c.trace = popped ++ (c.compactTo idx).trace ∧
      (∀ r ∈ popped, r.rangeEnd ≤ c.persisted + 1) ∧
      c.cache = pre ++ (c.compactTo idx).cache ∧ (∀ e ∈ pre, e.index ≤ c.persisted) ∧
      (c.compactTo idx).cache = c.cache.filter fun e =>
        min (popped.foldl (fun m r => max m r.rangeEnd) idx) (c.persisted + 1) ≤ e.index := by
  obtain ⟨popped, htrace, hle, hbound⟩ :=
    popTrace_spec c.persisted c.trace (min idx (c.persisted + 1))
  rw [foldl_max_min popped idx hle] at hbound
  refine ⟨popped, c.cache.filter fun e =>
    e.index < (popTrace c.persisted c.trace (min idx (c.persisted + 1))).2, ?_, hle, ?_, ?_, ?_⟩
  · rw [compactTo_eq hw]
    exact htrace
  · rw [compactTo_eq hw, hw.filter_lt, hw.filter_ge, List.take_append_drop]
  · -- the bound is at most one past the persisted index
    intro e he
    have hlt := of_decide_eq_true (List.mem_filter.mp he).2
    omega
  · rw [compactTo_eq hw, hbound]

theorem cacheWindow_of_window (size : Entry → Nat) (regionId peerId : Nat)
    (hw : ∃ lo, c.cache.IsWindow Entry.index lo) : CacheWindow size regionId peerId c := by
  obtain ⟨lo, hw⟩ := hw
  refine ⟨⟨lo, hw⟩, fun e es c' hs => ?_, fun e es hle htr => ?_, compact_of_window hw,
    fun e he => entry_of_mem hw he, fun begin end_ maxSize ents hlt hb he => ?_⟩
  · obtain ⟨rfl, -⟩ := appendImpl_ok hw (append_cons.symm.trans hs)
    rfl
  · rw [append_cons]
    exact appendImpl_exists hw hle htr
  · obtain ⟨eb, hmb, rfl⟩ := hb
    obtain ⟨ee, hme, rfl⟩ := he
    have h₁ := hw.key_mem hmb
    have h₂ := hw.key_mem hme
    exact fetchEntriesTo_eq size hw hlt h₁.1 (by omega)

end EntryCache

end Tikv.Raftstore
