import Sglang.Sticky.RowSlots
import Sglang.Sticky.Saved

/-!
# The one-slot cache

`StickyLastSequenceCache` (`sticky_last_sequence.py`) over a `ChunkCache`.  It pins the KV record of
the last finished request together with its token ids, and hands the record to a later request
whose ids continue the pinned ones, or share a recorded stop with them.

KV records are objects shared by reference: the pinned slot and the request it was handed to hold
the *same* `ReqKvInfo`.  They therefore live in a heap, and a slot or a request holds the address of
one.  `assert kv is self.kv` is the comparison of two addresses.

Each function is the source's, under its name; a tripped assertion is an `Except.error`.  The last
section holds the two callers that decide what the cache is given: `release_kv_cache`, which every
finish and abort goes through, and the row growth of `alloc_for_extend`.
-/

namespace Sglang.Sticky

/-- `HEALTH_CHECK_RID_PREFIX`. -/
def healthCheckRidPrefix : List Char :=
  ['H', 'E', 'A', 'L', 'T', 'H', '_', 'C', 'H', 'E', 'C', 'K']

/-- The fields of a request that the cache reads and writes. -/
structure Req where
  rid : Option (List Char)
  /-- The address of its KV record. -/
  kv : Nat
  originInputIds : List Token
  outputIds : List Token
  /-- `extend_range.end`, once the request was scheduled for a prefill. -/
  extendEnd : Option Nat
  prefixIndices : List Nat
  extraKey : Option String
  cacheSalt : Option String
  finishedLen : Option Nat
  /-- `isinstance(finished_reason, FINISH_ABORT)`. -/
  finishAbort : Bool
  deriving DecidableEq, Repr

/-- `is_health_check_generate_req`. -/
def Req.isHealthCheck (r : Req) : Bool :=
  match r.rid with
  | none => false
  | some rid => healthCheckRidPrefix.isPrefixOf rid

/-- A lookup key: token ids with an optional cap on how many count. -/
structure RadixKey where
  tokenIds : List Token
  limit : Option Nat
  extraKey : Option String
  cacheSalt : Option String
  deriving DecidableEq, Repr

/-- `token_ids` honoring `limit`. -/
def RadixKey.rawTokenIds (k : RadixKey) : List Token :=
  match k.limit with
  | none => k.tokenIds
  | some n => k.tokenIds.take n

lemma take_rawTokenIds {k : RadixKey} {n : Nat} (h : n ≤ k.rawTokenIds.length) :
    k.rawTokenIds.take n = k.tokenIds.take n ∧ n ≤ k.tokenIds.length := by
  obtain ⟨ids, limit, _, _⟩ := k
  cases limit with
  | none => exact ⟨rfl, h⟩
  | some m =>
    have h : n ≤ (ids.take m).length := h
    rw [List.length_take] at h
    show (ids.take m).take n = ids.take n ∧ n ≤ ids.length
    rw [List.take_take, min_eq_left (by omega)]
    exact ⟨rfl, by omega⟩

/-- Why a lookup was answered by the pin, as its log line says. -/
inductive HitEvent
  | exact
  | cut
  | session
  deriving DecidableEq, Repr

/-- What a lookup returns when the pin answers it. -/
structure MatchResult where
  deviceIndices : List Nat
  event : HitEvent
  deriving DecidableEq, Repr

/-- The cache, with the pools and the heap of KV records it works on. -/
structure Cache (Key Rows Ring : Type) where
  pool : ReqToTokenPool
  alloc : Allocator
  heap : Nat → ReqKvInfo
  /-- The first address not in use. -/
  nextKv : Nat
  /-- The address of the pinned record. -/
  slot : Option Nat
  lastIds : Option (List Token)
  lastExtraKey : Option String
  lastCacheSalt : Option String
  cuts : List Nat
  session : SessionState Key Rows Ring

namespace Cache
variable {Key Rows Ring : Type} (c : Cache Key Rows Ring)

/-- `self.page_size`. -/
def pageSize : Nat := c.alloc.pageSize

/-- Overwrite one record. -/
def setKv (ref : Nat) (kv : ReqKvInfo) : Cache Key Rows Ring :=
  { c with heap := fun r => if r = ref then kv else c.heap r }

@[simp] lemma heap_setKv_self (ref : Nat) (kv : ReqKvInfo) :
    (c.setKv ref kv).heap ref = kv := if_pos rfl

@[simp] lemma heap_setKv_of_ne {ref r : Nat} (kv : ReqKvInfo)
    (h : r ≠ ref) : (c.setKv ref kv).heap r = c.heap r := if_neg h

variable (req : Req)

/-- `detach_kv`: the request keeps a fresh, empty record. -/
def detachKv : Cache Key Rows Ring × Req :=
  ({ c.setKv c.nextKv {} with nextKv := c.nextKv + 1 }, { req with kv := c.nextKv })

/-- `self.free_kv_row`. -/
def freeRow (ref : Nat) (ranges : List (Nat × Nat)) :
    Except PoolFault (Cache Key Rows Ring) := do
  let alloc ← freeKvRow c.pool c.alloc (c.heap ref) ranges
  return { c with alloc }

/-- `req_to_token_pool.free`: the row is free again and the record names none. -/
def freePoolRow (ref : Nat) : Except PoolFault (Cache Key Rows Ring) :=
  match (c.heap ref).reqPoolIdx with
  | none => .error .noRow
  | some idx =>
    .ok ({ c with pool := c.pool.freeRows [idx] }.setKv ref
      { c.heap ref with reqPoolIdx := none })

def clearPin : Cache Key Rows Ring :=
  { c with
    slot := none
    lastIds := none
    lastExtraKey := none
    lastCacheSalt := none
    cuts := [] }

/-- The common body of `_drop_slot` and `_release_slot_kv`: give back the row of a record. -/
def releaseRecord (ref : Option Nat) : Except PoolFault (Cache Key Rows Ring) :=
  match ref with
  | none => .ok c
  | some ref =>
    if (c.heap ref).holdsKv then do
      let c ← c.freeRow ref [(0, (c.heap ref).kvAllocatedLen)]
      c.freePoolRow ref
    else .ok c

def dropSlot : Except PoolFault (Cache Key Rows Ring) := c.clearPin.releaseRecord c.slot

def releaseSlotKv : Except PoolFault (Cache Key Rows Ring) :=
  { c with slot := none }.releaseRecord c.slot

/-- The first page boundary from `n` on. -/
def nextPage (n : Nat) : Nat := if 1 < c.pageSize then ceilAlign n c.pageSize else n

def freeKvAligned (ref target stop : Nat) : Except PoolFault (Cache Key Rows Ring) :=
  if stop ≤ target then .ok c
  else c.freeRow ref [(c.nextPage target, stop)]

/-- `_free_tail`: cut a row down to `prefixLen` positions. -/
def freeTail (ref prefixLen : Nat) :
    Except PoolFault (Cache Key Rows Ring) := do
  let c ← c.freeKvAligned ref prefixLen (c.heap ref).kvAllocatedLen
  let kv := c.heap ref
  return c.setKv ref { kv with
    kvAllocatedLen := prefixLen
    kvCommittedLen := min kv.kvCommittedLen prefixLen
    swaEvictedSeqlen := min kv.swaEvictedSeqlen prefixLen }

/-- Where `_trim_overshoot` cuts the row of a finished request. -/
def trimTarget (finishedLen : Nat) : Nat :=
  let target := req.originInputIds.length + finishedLen
  if 1 < c.pageSize ∧ target < (c.heap req.kv).swaEvictedSeqlen then
    target / c.pageSize * c.pageSize
  else target

/-- `_trim_overshoot`: give back what was allocated past the finished ids. -/
def trimOvershoot (finishedLen : Nat) :
    Except PoolFault (Cache Key Rows Ring × Req) := do
  let target := c.trimTarget req finishedLen
  let c ← c.freeKvAligned req.kv target (c.heap req.kv).kvAllocatedLen
  let kv := c.heap req.kv
  return (c.setKv req.kv { kv with
      kvAllocatedLen := min kv.kvAllocatedLen target
      kvCommittedLen := min kv.kvCommittedLen target
      swaEvictedSeqlen := min kv.swaEvictedSeqlen target },
    { req with outputIds := req.outputIds.take finishedLen })

/-! ## Adopting a saved conversation -/

/-- `_alloc_slot`: a new row with `prefixLen` slots becomes the pinned record. -/
def allocSlot (prefixLen : Nat) : Bool × Cache Key Rows Ring :=
  if c.pageSize ≠ 1 ∨ prefixLen = 0 then (false, c)
  else match c.pool.allocRows 1 with
    | (some (idx :: _), pool) =>
      match c.alloc.alloc prefixLen with
      | (none, alloc) => (false, { c with pool := pool.freeRows [idx], alloc })
      | (some flat, alloc) =>
        if pool.maxContextLen < prefixLen ∨ flat.length < prefixLen then
          (false, { c with pool := pool.freeRows [idx], alloc })
        else
          (true, { c with
            pool := pool.write idx 0 (flat.take prefixLen)
            alloc
            heap := fun r => if r = c.nextKv then
              { reqPoolIdx := some idx, kvCommittedLen := prefixLen, kvAllocatedLen := prefixLen }
              else c.heap r
            nextKv := c.nextKv + 1
            slot := some c.nextKv })
    | (_, pool) => (false, { c with pool })

/-- `_ensure_slot`: the pinned row has at least `prefixLen` slots. -/
def ensureSlot (prefixLen : Nat) : Bool × Cache Key Rows Ring :=
  match c.slot.bind fun ref => (c.heap ref).reqPoolIdx.map fun idx => (ref, idx) with
  | none => c.allocSlot prefixLen
  | some (ref, idx) =>
    let kv := c.heap ref
    if prefixLen ≤ kv.kvAllocatedLen then (true, c)
    else if c.pageSize ≠ 1 then (false, c)
    else
      let need := prefixLen - kv.kvAllocatedLen
      match c.alloc.alloc need with
      | (none, alloc) => (false, { c with alloc })
      | (some flat, alloc) =>
        if c.pool.maxContextLen < prefixLen then (false, { c with alloc })
        else
          (true, { c with alloc, pool := c.pool.write idx kv.kvAllocatedLen (flat.take need) }.setKv
            ref { kv with kvAllocatedLen := prefixLen })

/-- The pinned row, as far as a lookup reads it. -/
def slotIndices (ref prefixLen : Nat) : List Nat :=
  match (c.heap ref).reqPoolIdx with
  | none => []
  | some idx => c.pool.slice idx 0 prefixLen

section
variable [DecidableEq Key] (cfg : SessionConfig Key) (c : Cache Key Rows Ring)

/-- `_adopt_saved`: ask the worker to load a saved conversation and pin its ids. -/
def adoptSaved (savedKey : Key)
    (prefixLen : Nat) (req : Req) :
    Except PoolFault (Cache Key Rows Ring × Req × Option MatchResult) :=
  match c.session.loadMeta cfg savedKey with
  | none => .ok (c, req, none)
  | some saved =>
    if prefixLen = 0 then .ok (c, req, none)
    else match c.ensureSlot prefixLen with
      | (false, c) => .ok (c, req, none)
      | (true, c) =>
        match c.slot with
        | none => .error .noRow
        | some ref => do
          let c := { c with session := c.session.requestLoad savedKey }
          let c ← c.freeTail ref prefixLen
          let c := { c with
            lastIds := some saved.ids
            cuts := saved.cuts.filter fun cut => decide (0 < cut ∧ cut ≤ prefixLen)
            lastExtraKey := saved.extraKey
            lastCacheSalt := orNone saved.cacheSalt }
          return (c, { req with kv := ref }, some ⟨c.slotIndices ref prefixLen, .session⟩)

/-- How much of a saved conversation the new ids may reuse. -/
def savedLen (newIds : List Token) (record : SessionRecord Key) : Nat :=
  if isExactContinuation newIds record.ids then record.ids.length
  else longestCut record.cuts newIds record.ids

/-- A record the lookup may resume: another conversation, with an image, in the same namespace. -/
def eligible (s : SessionState Key Rows Ring) (current : Option Key)
    (key : RadixKey) (record : SessionRecord Key) : Bool :=
  decide (some record.key ≠ current) && s.imageReady cfg record.key &&
    orNone record.extraKey == orNone key.extraKey && orNone record.cacheSalt == orNone key.cacheSalt

/-- The record, if more of it may be reused than of the best one so far. -/
def pickLonger (newIds : List Token) (best : Option Key × Nat) (record : SessionRecord Key) :
    Option Key × Nat :=
  if best.2 < savedLen newIds record then (some record.key, savedLen newIds record) else best

/-- The longest match in the catalog, the least recently touched first. -/
def bestSession (s : SessionState Key Rows Ring) (current : Option Key)
    (key : RadixKey) : Option Key × Nat :=
  ((s.listSessions cfg).filter (eligible cfg s current key)).foldl (pickLonger key.rawTokenIds)
    (none, 0)

/-- The key of the pinned conversation, when its ids are not empty. -/
def currentKey : Option Key :=
  match c.lastIds with
  | none => none
  | some ids => if ids = [] then none
    else some (sessionKey cfg ids c.lastExtraKey c.lastCacheSalt)

/-- The first half of `_match_saved_session`: record the pinned conversation and ask the worker to
spill it. -/
def spillCurrent : Cache Key Rows Ring :=
  match c.currentKey cfg with
  | none => c
  | some current =>
    { c with
      session := (c.session.remember cfg current (c.lastIds.getD []) c.cuts c.lastExtraKey
        c.lastCacheSalt).requestSpill current }

variable (key : RadixKey)

/-- `_match_saved_session`.  The catalog record is read a second time after the adoption; nothing
in between deletes it. -/
def matchSavedSession
    (req : Req) : Except PoolFault (Cache Key Rows Ring × Req × Option MatchResult) :=
  if !cfg.sessionsEnabled then .ok (c, req, none)
  else
    let current := c.currentKey cfg
    let c := c.spillCurrent cfg
    match bestSession cfg c.session current key with
    | (none, _) => .ok (c, req, none)
    | (some bestKey, bestLen) => c.adoptSaved cfg bestKey bestLen req

/-! ## Lookups -/

/-- How many of the pinned tokens a lookup may reuse, and whether it continues all of them. -/
def hitLen (lastIds : List Token) : Nat × Bool :=
  let sameSpace := key.extraKey == c.lastExtraKey && orNone key.cacheSalt == c.lastCacheSalt
  let exact := sameSpace && isExactContinuation key.rawTokenIds lastIds
  (if exact then lastIds.length
    else if sameSpace then longestCut c.cuts key.rawTokenIds lastIds else 0, exact)

/-- The hit branch of `_try_hit`: hand the pinned record to the request, cut to `prefixLen`. -/
def hit (slot prefixLen pinned : Nat) (event : HitEvent) (req : Req) :
    Except PoolFault (Cache Key Rows Ring × Req × Option MatchResult) := do
  let c ← c.freeTail slot prefixLen
  let c := if prefixLen < pinned then
    { c with cuts := c.cuts.filter fun cut => decide (cut ≤ prefixLen) } else c
  return (c, { req with kv := slot }, some ⟨c.slotIndices slot prefixLen, event⟩)

/-- `_try_hit`. -/
def tryHit (req : Req) : Except PoolFault (Cache Key Rows Ring × Req × Option MatchResult) :=
  if req.isHealthCheck then .ok (c, req, none)
  else match c.slot, c.lastIds with
    | some slot, some lastIds =>
      if !(c.heap slot).holdsKv then c.clearPin.matchSavedSession cfg key req
      else
        let (prefixLen, exact) := c.hitLen key lastIds
        if prefixLen = 0 then do
          let (c, req, saved) ← c.matchSavedSession cfg key req
          match saved with
          | none => return (← c.dropSlot, req, none)
          | some m => return (c, req, some m)
        else c.hit slot prefixLen lastIds.length (if exact then .exact else .cut) req
    | _, _ => c.matchSavedSession cfg key req

/-- `match_prefix`: the inner `ChunkCache` answers a miss with no indices. -/
def matchPrefix (cfg : SessionConfig Key) (c : Cache Key Rows Ring) (key : RadixKey) (req : Req) :
    Except PoolFault (Cache Key Rows Ring × Req × Option MatchResult) := do
  let (c, req, res) ← c.tryHit cfg key req
  return (c, { req with prefixIndices := (res.map fun m => m.deviceIndices).getD [] }, res)

end

/-! ## Finishing and stopping -/

/-- `ChunkCache.cache_finished_req`. -/
def innerFinished (ownedKvLen : Nat) : Except PoolFault (Cache Key Rows Ring) :=
  c.freeRow req.kv [((c.heap req.kv).cacheProtectedLen, ownedKvLen)]

/-- `save_from_req`: the slot takes over the record of the request. -/
def saveFromReq : Except PoolFault (Cache Key Rows Ring × Req) :=
  let kv := req.kv
  let (c, req) := c.detachKv req
  match c.slot with
  | none => .ok ({ c with slot := some kv }, req)
  | some ref => if kv = ref then .ok (c, req) else .error .foreignRecord

/-- A slot that is not the record of the request is given back before the request is pinned. -/
def releaseForeignSlot : Except PoolFault (Cache Key Rows Ring) :=
  if c.slot.isSome ∧ c.slot ≠ some req.kv then c.releaseSlotKv else .ok c

/-- Where `_pin_aborted_prefix` pins; `0` means nowhere. -/
def abortedPinLen : Nat :=
  let ids := req.originInputIds ++ req.outputIds
  let kv := c.heap req.kv
  if ids = [] ∨ !kv.holdsKv then 0
  else abortedPrefixLen c.cuts (min ids.length kv.kvAllocatedLen) req.extendEnd

/-- The pin an aborted request leaves. -/
def pinAbortedIds (ids : List Token) (pinLen : Nat) : Cache Key Rows Ring :=
  { c with
    lastIds := some (ids.take pinLen)
    lastExtraKey := req.extraKey
    lastCacheSalt := orNone req.cacheSalt
    cuts := abortedCuts c.cuts c.lastIds ids pinLen }

/-- `_pin_aborted_prefix`: keep the last completed chunk when a prefill is aborted. -/
def pinAbortedPrefix : Except PoolFault (Bool × Cache Key Rows Ring × Req) :=
  let ids := req.originInputIds ++ req.outputIds
  let pinLen := c.abortedPinLen req
  if pinLen = 0 then .ok (false, c, req)
  else do
    let c ← c.releaseForeignSlot req
    let c ← c.freeTail req.kv pinLen
    let c := c.setKv req.kv { c.heap req.kv with cacheProtectedLen := 0 }
    let (c, req) ← c.saveFromReq req
    return (true, c.pinAbortedIds req ids pinLen, req)

/-- The pin a finished request leaves, once the slot holds its record. -/
def pinIds (ref : Nat) (ids : List Token) : Cache Key Rows Ring :=
  let kv := c.heap ref
  { c.setKv ref { kv with
      kvCommittedLen := min ids.length kv.kvAllocatedLen
      cacheProtectedLen := 0 } with
    cuts := noteCut c.cuts c.lastIds ids none
    lastIds := some ids
    lastExtraKey := req.extraKey
    lastCacheSalt := orNone req.cacheSalt }

/-- `finished_len`, or all of the output. -/
def finishedLenOf : Nat := req.finishedLen.getD req.outputIds.length

/-- The normal finish of `cache_finished_req`: trim the row and pin the ids. -/
def pinFinished :
    Except PoolFault (Cache Key Rows Ring × Req) := do
  let ids := req.originInputIds ++ req.outputIds.take (finishedLenOf req)
  let ref := req.kv
  let (c, req) ← c.trimOvershoot req (finishedLenOf req)
  let (c, req) ← c.saveFromReq req
  return (c.pinIds req ref ids, req)

/-- An abort that pins nothing drops the pin, and leaves the row alone when the request holds it. -/
def dropForAbort : Except PoolFault (Cache Key Rows Ring) :=
  if c.slot = some req.kv then .ok c.clearPin else c.dropSlot

/-- `cache_finished_req`. -/
def cacheFinishedReq (ownedKvLen : Nat) : Except PoolFault (Cache Key Rows Ring × Req) :=
  if req.isHealthCheck then do return (← c.innerFinished req ownedKvLen, req)
  else if req.finishAbort then do
    let (pinned, c, req) ← c.pinAbortedPrefix req
    if pinned then return (c, req)
    else
      let c ← c.dropForAbort req
      return (← c.innerFinished req ownedKvLen, req)
  else c.pinFinished req

/-- `cache_unfinished_req`: record a stop at the end of the chunk, then let the inner cache refresh
`prefix_indices`. -/
def cacheUnfinishedReq : Except PoolFault (Cache Key Rows Ring × Req) :=
  let ids := req.originInputIds ++ req.outputIds
  let c := if ids = [] then c
    else { c with cuts := noteCut c.cuts c.lastIds ids req.extendEnd }
  match (c.heap req.kv).reqPoolIdx, req.extendEnd with
  | some idx, some stop => .ok (c, { req with prefixIndices := c.pool.slice idx 0 stop })
  | _, _ => .error .noRow

/-- `reset`; the inner cache has nothing to reset. -/
def reset : Except PoolFault (Cache Key Rows Ring) := c.dropSlot

/-! ## The callers -/

/-- What `release_kv_cache` gives back past `owned_kv_len`, from the next page on. -/
def freePastOwned (ref owned : Nat) : Except PoolFault (Cache Key Rows Ring) :=
  if c.nextPage owned < (c.heap ref).kvAllocatedLen then
    c.freeRow ref [(c.nextPage owned, (c.heap ref).kvAllocatedLen)]
  else .ok c

/-- `release_kv_cache`: the way every finished or aborted request with KV leaves.  What the cache
did not take over is given back here. -/
def releaseKvCache : Except PoolFault (Cache Key Rows Ring × Req) :=
  if !(c.heap req.kv).holdsKv then .error .noRow
  else if (c.heap req.kv).isKvReleased then .error .releasedRow
  else do
    let owned := (c.heap req.kv).kvCommittedLen
    let (c, req) ← c.cacheFinishedReq req owned
    if !(c.heap req.kv).holdsKv then return (c, req)
    else
      let c ← c.freePastOwned req.kv owned
      let c ← c.freePoolRow req.kv
      return (c.setKv req.kv { c.heap req.kv with kvAllocatedLen := 0, swaEvictedSeqlen := 0 }, req)

/-- The row a record grows in, and from where: its own from its end, or a new one from the start. -/
def rowToGrow (ref : Nat) : Option (Nat × ReqToTokenPool × Nat) :=
  match (c.heap ref).reqPoolIdx with
  | some idx => some (idx, c.pool, (c.heap ref).kvAllocatedLen)
  | none => match c.pool.allocRows 1 with
    | (some (idx :: _), pool) => some (idx, pool, 0)
    | _ => none

/-- `alloc_for_extend` and the decode allocations: slots for the positions up to `seqLen`.
`committedLen` is what the caller marks as committed. -/
def growRow (ref seqLen committedLen : Nat) : Option (Cache Key Rows Ring) :=
  match c.rowToGrow ref with
  | none => none
  | some (idx, pool, start) =>
    if seqLen < start ∨ pool.maxContextLen < seqLen then none
    else match c.alloc.allocExtend start seqLen (pool.rows idx (start - 1)) with
      | (none, _) => none
      | (some locs, alloc) =>
        some ({ c with alloc, pool := pool.write idx start locs }.setKv ref
          { c.heap ref with
            reqPoolIdx := some idx
            kvAllocatedLen := seqLen
            kvCommittedLen := committedLen })

end Cache
end Sglang.Sticky
