import Mathlib.Tactic
import Mathlib.Algebra.Order.Floor.Div

/-!
# The KV pools under the sticky cache

A request owns device KV through a record, `ReqKvInfo`, that names a row of the
`req_to_token` table and says how much of that row is allocated.  The row maps token positions to
KV slots, and the slots come from a page allocator.  This file is the model of the three and of the
one function that gives slots back, `free_kv_row` (`base_prefix_cache.py`, `common.py`).

The allocator is `TokenToKVPoolAllocator` when the page size is `1` and
`PagedTokenToKVPoolAllocator` otherwise; the two differ only in where a freed page is put.  Frees
take effect at once (`free_group` is `None`), and there is no separate window pool, so
`free_full` is `free`.
-/

namespace Sglang.Sticky

/-- The assertions a pool operation can trip. -/
inductive PoolFault
  /-- `segment start ... is not page-aligned`. -/
  | segmentStart (start : Nat)
  /-- `segment at ... shares a page with the one ending at ...`. -/
  | segmentShared (start prevEnd : Nat)
  /-- `SWA eviction floor ... splits a page`. -/
  | floorSplitsPage (floor pageSize : Nat)
  /-- The record names no row. -/
  | noRow
  /-- A row is registered but nothing is allocated in it. -/
  | releasedRow
  /-- `assert kv is self.kv` of `_Slot.save_from_req`. -/
  | foreignRecord
  deriving DecidableEq, Repr

/-- `ReqKvInfo`: the device KV a request holds outside the prefix cache.  The fields of other
layouts (Mamba state, retraction backup, the prefill-aware window floor) are left out. -/
structure ReqKvInfo where
  /-- The row of `req_to_token`, if one is registered. -/
  reqPoolIdx : Option Nat := none
  /-- The tree cache owns the positions below; always `0` over a chunk cache. -/
  cacheProtectedLen : Nat := 0
  /-- KV content committed up to here. -/
  kvCommittedLen : Nat := 0
  /-- Positions of the row that have a slot. -/
  kvAllocatedLen : Nat := 0
  /-- The window eviction cursor. -/
  swaEvictedSeqlen : Nat := 0
  deriving DecidableEq, Repr

/-- A row is registered. -/
def ReqKvInfo.holdsKv (kv : ReqKvInfo) : Bool := kv.reqPoolIdx.isSome

def ReqKvInfo.isKvReleased (kv : ReqKvInfo) : Bool :=
  kv.kvAllocatedLen == 0 && kv.swaEvictedSeqlen == 0

def ceilDiv (x y : Nat) : Nat := (x + y - 1) / y

def ceilAlign (x y : Nat) : Nat := ceilDiv x y * y

/-! ## The page allocator -/

/-- A page allocator.  With `needSort`, freed pages wait in `releasePages` until an allocation
runs short. -/
structure Allocator where
  pageSize : Nat
  needSort : Bool
  freePages : List Nat
  releasePages : List Nat
  deriving DecidableEq, Repr

variable (a : Allocator) (segments : List (List Nat × Nat))

namespace Allocator

/-- `get_all_free_pages`. -/
def allFree : List Nat := a.freePages ++ a.releasePages

def mergeAndSortFree : Allocator :=
  if a.releasePages.isEmpty then a
  else { a with
    freePages := (a.freePages ++ a.releasePages).mergeSort
    releasePages := [] }

/-- The slots of a list of pages, in order. -/
def pageSlots (pageSize : Nat) (pages : List Nat) : List Nat :=
  pages.flatMap fun p => (List.range pageSize).map fun k => p * pageSize + k

/-- `alloc`: whole pages from the front of the free list, or `none` when there are too few. -/
def alloc (needSize : Nat) : Option (List Nat) × Allocator :=
  let numPages := needSize / a.pageSize
  let a := if a.freePages.length < numPages then a.mergeAndSortFree else a
  if a.freePages.length < numPages then (none, a)
  else (some (pageSlots a.pageSize (a.freePages.take numPages)),
    { a with freePages := a.freePages.drop numPages })

/-- `alloc_token_slots` / `alloc_extend`: slots for the positions from `prefixLen` to `seqLen`.
The rest of the last page of the prefix is filled first, then new pages are taken. -/
def allocExtend (a : Allocator) (prefixLen seqLen lastLoc : Nat) : Option (List Nat) × Allocator :=
  let numNewPages := ceilDiv seqLen a.pageSize - ceilDiv prefixLen a.pageSize
  let wanted := if a.pageSize = 1 then numNewPages
    else (seqLen - prefixLen) / a.pageSize + 2
  let a := if a.freePages.length < wanted then a.mergeAndSortFree else a
  if a.freePages.length < numNewPages then (none, a)
  else
    let ceilPrefix := ceilAlign prefixLen a.pageSize
    (some ((List.range (seqLen - prefixLen)).map fun j =>
        if prefixLen + j < ceilPrefix then lastLoc + 1 + j
        else a.freePages.getD ((prefixLen + j - ceilPrefix) / a.pageSize) 0 * a.pageSize +
          (prefixLen + j) % a.pageSize),
      { a with freePages := a.freePages.drop numNewPages })

/-- `_release_page_ids`, and the tail of `TokenToKVPoolAllocator.free`. -/
def releasePageIds (pages : List Nat) : Allocator :=
  if a.needSort then { a with releasePages := a.releasePages ++ pages }
  else if a.pageSize = 1 then { a with freePages := a.freePages ++ pages }
  else { a with freePages := pages ++ a.freePages }

/-- `free`: release every page that holds one of the slots. -/
def free (freeIndex : List Nat) : Allocator :=
  if freeIndex.isEmpty then a
  else a.releasePageIds
    (if a.pageSize = 1 then freeIndex
     else ((freeIndex.map fun x => x / a.pageSize).mergeSort).dedup)

/-- `free_index[::page_size] // page_size`. -/
def stridedPages (pageSize : Nat) (freeIndex : List Nat) : List Nat :=
  (List.range (ceilDiv freeIndex.length pageSize)).map fun k =>
    freeIndex.getD (k * pageSize) 0 / pageSize

/-- `free_segment`: `start_pos` sits on a page boundary and the whole last page is released. -/
def freeSegment (freeIndex : List Nat) (startPos : Nat) : Except PoolFault Allocator :=
  if startPos % a.pageSize = 0 then .ok (a.releasePageIds (stridedPages a.pageSize freeIndex))
  else .error (.segmentStart startPos)

/-- `free_full_segment`: a single pool has no window peer, so this is a plain `free`. -/
def freeFullSegment (freeIndex : List Nat) (startPos : Nat) : Except PoolFault Allocator :=
  if startPos % a.pageSize = 0 then .ok (a.free freeIndex) else .error (.segmentStart startPos)

/-- The common loop of `free_segments` and `free_full_segments`, with the check of
`_page_disjoint` on each non-empty segment. -/
def freeEach (release : Allocator → List Nat → Nat → Except PoolFault Allocator) :
    Allocator → Option Nat → List (List Nat × Nat) → Except PoolFault Allocator
  | a, _, [] => .ok a
  | a, prevEnd, (freeIndex, startPos) :: rest =>
    if freeIndex.isEmpty then freeEach release a prevEnd rest
    else
      let shares := prevEnd.any fun e => decide (startPos / a.pageSize ≤ (e - 1) / a.pageSize)
      if shares then .error (.segmentShared startPos (prevEnd.getD 0))
      else do
        let a ← release a freeIndex startPos
        freeEach release a (some (startPos + freeIndex.length)) rest

def freeSegments : Except PoolFault Allocator := freeEach freeSegment a none segments

def freeFullSegments : Except PoolFault Allocator := freeEach freeFullSegment a none segments

end Allocator

/-! ## Giving back a part of a row -/

/-- Merge adjacent half-open ranges, so that a split inside a page frees that page once. -/
def coalesceRanges (ranges : List (Nat × Nat)) : List (Nat × Nat) :=
  ranges.foldl (fun merged r => match merged.getLast? with
    | some last => if r.1 = last.2 then merged.dropLast ++ [(last.1, r.2)] else merged ++ [r]
    | none => merged ++ [r]) []

/-- `free_kv_row_segments`: segments below the window eviction floor go through
`free_full_segments`, the rest through `free_segments`. -/
def freeKvRowSegments (swaEvictedSeqlen : Nat) : Except PoolFault Allocator :=
  let numDead : List Nat × Nat → Nat := fun s => min (swaEvictedSeqlen - s.2) s.1.length
  let swaDead := (segments.filter fun s => decide (0 < numDead s)).map fun s =>
    (s.1.take (numDead s), s.2)
  let swaAlive := (segments.filter fun s => decide (numDead s < s.1.length)).map fun s =>
    (s.1.drop (numDead s), s.2 + numDead s)
  if swaDead ≠ [] ∧ swaAlive ≠ [] ∧ swaEvictedSeqlen % a.pageSize ≠ 0 then
    .error (.floorSplitsPage swaEvictedSeqlen a.pageSize)
  else do
    let a ← if swaDead = [] then .ok a else a.freeFullSegments swaDead
    if swaAlive = [] then .ok a else a.freeSegments swaAlive

/-- `ReqToTokenPool`: rows of token locations, and the rows nobody uses. -/
structure ReqToTokenPool where
  maxContextLen : Nat
  rows : Nat → Nat → Nat
  freeSlots : List Nat

variable (p : ReqToTokenPool)

namespace ReqToTokenPool

/-- `req_to_token[idx, start:end]`. -/
def slice (idx start stop : Nat) : List Nat :=
  (List.range' start (min stop p.maxContextLen - start)).map (p.rows idx)

/-- `req_to_token[idx, start:start+len(values)] = values`. -/
def write (idx start : Nat) (values : List Nat) : ReqToTokenPool :=
  { p with rows := fun i pos =>
      if i = idx ∧ start ≤ pos ∧ pos < start + values.length then values.getD (pos - start) 0
      else p.rows i pos }

/-- `alloc_rows`: from the tail of the list of free rows. -/
def allocRows (needSize : Nat) : Option (List Nat) × ReqToTokenPool :=
  if p.freeSlots.length < needSize then (none, p)
  else (some (p.freeSlots.drop (p.freeSlots.length - needSize)),
    { p with freeSlots := p.freeSlots.take (p.freeSlots.length - needSize) })

def freeRows (indices : List Nat) : ReqToTokenPool := { p with freeSlots := p.freeSlots ++ indices }

end ReqToTokenPool

lemma length_slice (idx start stop : Nat) :
    (p.slice idx start stop).length = min stop p.maxContextLen - start := by
  simp [ReqToTokenPool.slice]

/-- `free_kv_row`: give back ascending disjoint position ranges of the record's row. -/
def freeKvRow (pool : ReqToTokenPool) (a : Allocator) (kv : ReqKvInfo)
    (ranges : List (Nat × Nat)) : Except PoolFault Allocator :=
  match kv.reqPoolIdx with
  | none => .error .noRow
  | some idx =>
    freeKvRowSegments a ((coalesceRanges ranges).map fun r => (pool.slice idx r.1 r.2, r.1))
      kv.swaEvictedSeqlen

end Sglang.Sticky
