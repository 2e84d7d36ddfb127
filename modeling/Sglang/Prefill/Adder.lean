import Sglang.Prefill.Budget

/-!
# The prefill adder

`PrefillAdder` goes over the waiting requests once per scheduling round and collects those that the
next prefill batch can take.  A request that is in the middle of its prefill goes on first
(`addChunkedReq`); a new one is admitted by `addOneReq`, whole or with a first chunk, and
`addOneReqIgnoreEos` is the variant for requests whose length is known, when there is no prefix
cache.

What the prefix cache, the delayer and the host cache answer during one call is a parameter
(`Answers`): how many evictable tokens the lock on the request's prefix pins, whether the delayer
lets the prefill happen, and what the load-back of a host prefix brought in.

The state is what the calls read and change.  Counters that only feed the logs, the diffusion
models and the shared Mamba pool are left out.
-/

namespace Sglang.Prefill

/-- `FINISH_ABORT`. -/
structure FinishAbort where
  message : String
  statusCode : ℕ
  errType : String
  deriving DecidableEq, Repr

/-- A request, as the adder sees it: the lengths of its token lists and of its cached prefix on the
device and on the host, and its sampling parameters.  The prefix match leaves at least one token to
compute. -/
structure Req where
  originInputLen : ℕ
  outputLen : ℕ
  fillLen : ℕ
  prefixLen : ℕ
  hostHitLength : ℕ
  swaHostHitLength : ℕ
  maxNewTokens : ℕ
  ignoreEos : Bool
  finished : Bool
  /-- The request has no row in the token pool yet, or was retracted. -/
  replays : Bool
  toFinish : Option FinishAbort
  matched_lt : prefixLen + hostHitLength < fillLen
  deriving DecidableEq

/-- `AddReqResult`. -/
inductive AddReqResult
  | continue
  | noToken
  | other
  | abort
  deriving DecidableEq, Repr

/-- The constants of a pass. -/
structure Config where
  memory : Memory
  /-- `CLIP_MAX_NEW_TOKENS`. -/
  clipMaxNewTokens : ℕ
  newTokenRatio : ℚ
  exactChunkFill : Bool
  /-- The schedule policy is `shortest-prefill-first`. -/
  shortestPrefillFirst : Bool
  /-- `tree_cache.disable`. -/
  treeCacheDisabled : Bool
  /-- `enable_encoder_swa_bounded_replay`. -/
  boundedReplay : Bool
  prefillMaxRequests : Option ℕ
  runningReqs : List Req
  /-- Whether the tiles of the admitted lengths with a candidate exceed the tile budget. -/
  tilesExceed : List ℤ → ℤ → Bool

/-- An entry of `req_states`. -/
structure ReqState where
  tokensLeft : ℚ
  tokensOccupied : ℕ
  deriving DecidableEq, Repr

/-- A request of `can_run_list` with its `extend_range`. -/
structure Admitted where
  req : Req
  start : ℤ
  stop : ℤ
  deriving DecidableEq

/-- `extend_range.length`. -/
def Admitted.extendLen (a : Admitted) : ℤ := a.stop - a.start

/-- The mutable part of a `PrefillAdder`. -/
structure Adder where
  budget : Budget
  remInputTokens : ℤ
  remChunkTokens : Option ℤ
  reqStates : Option (List ReqState)
  canRunList : List Admitted
  deriving DecidableEq

/-- `_PrefillAdmission`. -/
structure Admission where
  prefixLen : ℤ
  extendLen : ℤ
  maxNewTokens : ℤ
  isChunked : Bool
  deriving DecidableEq

/-- What `init_load_back` did: how many tokens it loaded, and the pools after it. -/
structure LoadBack where
  loaded : ℕ
  pools : Pools
  deriving DecidableEq

/-- What the rest of the system answers during a call. -/
structure Answers where
  /-- Evictable tokens of the full pool that the lock on the prefix pins. -/
  pinnedFull : ℕ
  /-- Evictable tokens of the sliding-window pool that the lock on the prefix pins. -/
  pinnedSwa : ℕ
  /-- `negotiate_should_allow_prefill`, or there is no delayer. -/
  allowsPrefill : Bool
  loadBack : Option LoadBack
  deriving DecidableEq

/-- What the code raises. -/
inductive Raised
  /-- A load-back that is neither whole nor empty. -/
  | partialLoadBack
  /-- A failed assertion. -/
  | assertion
  /-- A comparison with `None`. -/
  | typeError
  deriving DecidableEq, Repr

/-- What a call of `add_one_req` leaves behind. -/
structure Outcome where
  result : AddReqResult
  req : Req
  adder : Adder
  deriving DecidableEq

/-! ## Requests -/

namespace Req

/-- `len(full_untruncated_fill_ids) - len(prefix_indices)`. -/
def candExtendInputLen (r : Req) : ℤ := r.fillLen - r.prefixLen

/-- `needs_host_load_back`. -/
def needsHostLoadBack (r : Req) : Bool :=
  decide (0 < r.hostHitLength) || decide (0 < r.swaHostHitLength)

/-- `set_finish_with_abort`. -/
def setFinishWithAbort (r : Req) (a : FinishAbort) : Req :=
  { r with originInputLen := 1, toFinish := some a }

end Req

namespace Config
variable (c : Config)

/-- `_swa_new_tokens`: the tokens a request may still decode, clipped. -/
def swaNewTokens (r : Req) : ℤ :=
  min (max ((r.maxNewTokens : ℤ) - r.outputLen) 0) c.clipMaxNewTokens

/-- `min(max_new_tokens, CLIP_MAX_NEW_TOKENS)`. -/
def clippedNewTokens (r : Req) : ℤ := min (r.maxNewTokens : ℤ) c.clipMaxNewTokens

/-- `_get_running_request_total_token_offset`. -/
def runningRequestTotalTokenOffset (r : Req) : ℚ :=
  (min ((r.maxNewTokens : ℤ) - r.outputLen) c.clipMaxNewTokens : ℤ) * c.newTokenRatio

/-- `_swa_wait_is_futile`: no request is running that could give anything back. -/
def swaWaitIsFutile : Bool := c.runningReqs.all (·.finished)

/-- `total_tokens` of `add_one_req`. -/
def totalTokens (r : Req) : ℤ := r.candExtendInputLen + c.swaNewTokens r + c.memory.pageSize

/-- `real_input_tokens` of `add_one_req`. -/
def realInputTokens (r : Req) : ℤ := c.memory.ceil (r.candExtendInputLen - r.hostHitLength)

/-- `chunk_fit_tokens` of `_select_prefill_admission`. -/
def chunkFitTokens (extendLen : ℤ) : ℤ :=
  if c.exactChunkFill then extendLen else c.memory.ceil extendLen

/-- `compute_charge`: the length itself under exact chunk fill, whole pages otherwise. -/
def computeCharge (extendLen : ℤ) : Option ℤ := if c.exactChunkFill then some extendLen else none

end Config

/-! ## The pass -/

namespace Adder

/-- `PrefillAdder.__init__`. -/
def start (c : Config) (pools : Pools) (remInputTokens : ℤ) (remChunkTokens : Option ℤ)
    (numMixedDecodeTokens : ℕ) : Adder where
  budget :=
    { pools
      totalOffset := numMixedDecodeTokens +
        (c.runningReqs.map c.runningRequestTotalTokenOffset).sum
      currentOffset := numMixedDecodeTokens
      swaOffset := 0 }
  remInputTokens := remInputTokens - numMixedDecodeTokens
  remChunkTokens := remChunkTokens.map (· - numMixedDecodeTokens)
  reqStates := none
  canRunList := []

variable (c : Config) (s : Adder)

/-- `_check_prefill_tile_budget` returns a verdict. -/
def tileStops (candidateExtendLen : ℤ) : Bool :=
  !s.canRunList.isEmpty && c.tilesExceed (s.canRunList.map Admitted.extendLen) candidateExtendLen

/-- `budget_state`. -/
def budgetState : AddReqResult :=
  if !c.memory.hasCapacity s.budget then .noToken
  else if s.remInputTokens ≤ 0 then .other
  else match s.remChunkTokens with
    | none => .continue
    | some rem => if rem ≤ 0 then .other else .continue

/-- `_update_prefill_budget`. -/
def updatePrefillBudget (extendInputLen maxNewTokens : ℤ) (computeCharge : Option ℤ) : Adder :=
  let paged := c.memory.ceil extendInputLen
  let charge := computeCharge.getD paged
  { s with
    budget := c.memory.reserve s.budget paged maxNewTokens s.remChunkTokens
    remInputTokens := s.remInputTokens - charge
    remChunkTokens := s.remChunkTokens.map (· - charge) }

variable (req : Req)

/-- The part of `_account_prefill_cache_admission` that charges the budgets. -/
def accountPrefillCacheAdmission (prefixLen : ℤ) : Adder :=
  if c.boundedReplay && req.replays then
    let replayTokens := min prefixLen 128
    { s with
      remInputTokens := s.remInputTokens - replayTokens
      remChunkTokens := s.remChunkTokens.map (· - replayTokens) }
  else s

/-- Append a request to `can_run_list` with its extend range. -/
def append (start extendLen : ℤ) : Adder :=
  { s with canRunList := s.canRunList ++ [⟨req, start, start + extendLen⟩] }

/-! ### The sliding-window gate -/

/-- `_swa_chunk_cap`. -/
def swaChunkCap (w : SwaPool) (maxNewTokens swaHostHitLength : ℤ) : ℤ :=
  let cap := c.memory.remainingSwa s.budget -
    c.memory.swaTokens w 0 maxNewTokens none swaHostHitLength
  if cap ≤ 0 then 0 else floorPagedTokens c.memory.pageSize cap

/-- `_abort_swa_unadmittable`. -/
def abortSwaUnadmittable (w : SwaPool) (req : Req) (swaNeeded : ℤ) : Req :=
  let free := c.memory.remainingSwa s.budget
  req.setFinishWithAbort
    { message :=
        s!"Cannot admit prefill: sliding-window KV pool has {free} free " ++
        s!"tokens (pool={w.sizeSwa}, page={c.memory.pageSize}, need={swaNeeded}) " ++
        "and nothing running can free more. Aborting instead of waiting forever."
      statusCode := 503
      errType := "ServiceUnavailableError" }

/-- `_apply_swa_token_gate`: a verdict, or the bound on the chunk with which to proceed. -/
def applySwaTokenGate (realInputTokens : ℤ) (req : Req) (chunkTokensLimit : Option ℤ) :
    Option AddReqResult × Option ℤ × Req :=
  match c.memory.swa with
  | none => (none, chunkTokensLimit, req)
  | some w =>
    let maxNew := c.swaNewTokens req
    let remSwa := c.memory.remainingSwa s.budget
    let needed := c.memory.swaTokens w realInputTokens maxNew s.remChunkTokens req.swaHostHitLength
    if needed < remSwa then (none, chunkTokensLimit, req)
    else
      let neverFits := decide (w.sizeSwa ≤ needed)
      let waitFutile := c.swaWaitIsFutile
      let swaCap := s.swaChunkCap c w maxNew req.swaHostHitLength
      -- on an idle pool the headroom may leave nothing of a page that is there
      let swaCap : ℤ := if swaCap ≤ 0 ∧ waitFutile ∧ c.memory.pageSize ≤ remSwa
        then c.memory.pageSize else swaCap
      if s.remChunkTokens.isSome ∧ 0 < swaCap then
        (none, s.remChunkTokens.map (min · swaCap), req)
      else if waitFutile ∨ neverFits ∧ s.remChunkTokens.isNone then
        (some .abort, chunkTokensLimit, s.abortSwaUnadmittable c w req needed)
      else (some .noToken, chunkTokensLimit, req)

/-! ### A request in the middle of its prefill -/

/-- The rest of `add_chunked_req`, once the length of the chunk is known. -/
def continueChunk (remTokens : ℤ) : Option Req × Adder :=
  let truncated := decide (remTokens < req.candExtendInputLen)
  let newLen := min req.candExtendInputLen remTokens
  (if truncated then some req else none,
    (s.append req req.prefixLen newLen).updatePrefillBudget c newLen
      (if truncated then 0 else c.clippedNewTokens req) (c.computeCharge newLen))

/-- `add_chunked_req`.  It returns the request while its prefill is not finished. -/
def addChunkedReq (chunkedReqLimit : Option ℤ) : Except Raised (Option Req × Adder) :=
  match s.remChunkTokens with
  | none => .error .typeError
  | some rem =>
    match c.memory.availableChunkTokens s.budget rem, c.memory.swa with
    | none, none => .ok (some req, s)
    | none, some w =>
      .ok (some (if c.swaWaitIsFutile then
        s.abortSwaUnadmittable c w req (max c.memory.pageSize 1) else req), s)
    | some available, _ =>
      let remTokens := c.memory.boundBySwa s.budget available
      match chunkedReqLimit with
      | none => .ok (s.continueChunk c req remTokens)
      | some limit =>
        if limit ≤ 0 then .error .assertion
        else .ok (s.continueChunk c req (min remTokens limit))

/-! ### Requests of known length, without a prefix cache -/

/-- The entry of a request in `req_states`. -/
def reqState (r : Req) : ReqState where
  tokensLeft := r.maxNewTokens * (if r.ignoreEos then 1 else c.newTokenRatio) - r.outputLen
  tokensOccupied := r.originInputLen + r.outputLen

variable (states : List ReqState)

/-- `add_req_state(r)`. -/
def appendReqState (r : Req) : List ReqState :=
  if (reqState c r).tokensLeft ≤ 0 then states else states ++ [reqState c r]

/-- The value of the loop variable `i` after the loop of `add_req_state`: the first entry that has
at least as many tokens left, or else the last one. -/
def insertPosition (tokensLeft : ℚ) : ℕ :=
  match states.findIdx? fun r => decide (tokensLeft ≤ r.tokensLeft) with
  | some i => i
  | none => states.length - 1

/-- `add_req_state(r, insert_sort=True)`. -/
def insertReqState (r : Req) : List ReqState :=
  if (reqState c r).tokensLeft ≤ 0 then states
  else states.insertIdx (insertPosition states (reqState c r).tokensLeft) (reqState c r)

/-- The `req_states` that a call works with: built and sorted by the first one, extended by the
later ones. -/
def trackReq : List ReqState :=
  match s.reqStates with
  | none =>
    let reqs := req :: c.runningReqs ++ s.canRunList.map Admitted.req
    (reqs.foldl (appendReqState c) []).insertionSort fun a b => a.tokensLeft ≤ b.tokensLeft
  | some states => insertReqState c states req

/-- `IGNORE_EOS_RESERVE_TOKENS`. -/
def ignoreEosReserveTokens : ℚ := 1

/-- The sweep over `req_states`: at no entry do the free tokens fall to the reserve. -/
def sweepReqStates (curRemTokens : ℚ) : ℚ → List ReqState → Bool
  | _, [] => true
  | tokensFreed, r :: rest =>
    let bs : ℚ := rest.length + 1
    if curRemTokens + tokensFreed - r.tokensLeft * bs ≤ ignoreEosReserveTokens * bs then false
    else sweepReqStates curRemTokens (tokensFreed + r.tokensOccupied) rest

/-- The end of `add_one_req_ignore_eos`: the request joins whole, or with its first chunk. -/
def commitIgnoreEos : Except Raised Outcome :=
  let cand := req.candExtendInputLen
  if s.remChunkTokens.all fun rem => decide (cand ≤ rem) then
    if s.tileStops c cand then .ok ⟨.other, req, s⟩
    else
      let s := (s.append req req.prefixLen cand).updatePrefillBudget c cand
        (c.clippedNewTokens req) (c.computeCharge cand)
      .ok ⟨s.budgetState c, req, s⟩
  else
    let truncLen := s.remChunkTokens.getD 0
    if truncLen ≤ 0 then .ok ⟨.other, req, s⟩
    else if s.tileStops c truncLen then .ok ⟨.other, req, s⟩
    else if req.prefixLen ≠ 0 then .error .assertion
    else
      let s := (s.append req req.prefixLen truncLen).updatePrefillBudget c truncLen 0
        (c.computeCharge truncLen)
      .ok ⟨s.budgetState c, req, s⟩

/-- `add_one_req_ignore_eos`. -/
def addOneReqIgnoreEos (allowsPrefill : Bool) : Except Raised Outcome :=
  let cand := req.candExtendInputLen
  if !c.memory.canAllocatePrefill s.budget (c.memory.ceil cand) cand (c.swaNewTokens req)
      s.remChunkTokens then .ok ⟨.noToken, req, s⟩
  else
    let states := s.trackReq c req
    let s := { s with reqStates := some states }
    let curRemTokens := c.memory.remainingCurrent s.budget - c.memory.ceil cand
    if c.memory.swa.isNone && !sweepReqStates curRemTokens 0 states then .ok ⟨.noToken, req, s⟩
    else if !allowsPrefill then .ok ⟨.other, req, s⟩
    else s.commitIgnoreEos c req

/-! ### A new request -/

/-- A length cut down to the alignment, if there is one. -/
def truncationAlign (truncationAlignSize : Option ℕ+) (n : ℤ) : ℤ :=
  match truncationAlignSize with
  | none => n
  | some size => floorPagedTokens (size : ℕ) n

/-- The length of a chunk that is cut at `limit`. -/
def chunkLen (prefixLen limit : ℤ) (truncationAlignSize : Option ℕ+) : ℤ :=
  if c.exactChunkFill then truncationAlign truncationAlignSize limit
  else
    let extendLen := truncationAlign truncationAlignSize (floorPagedTokens c.memory.pageSize limit)
    floorPagedTokens c.memory.pageSize (prefixLen + extendLen) - prefixLen

/-- `_select_prefill_admission`. -/
def selectPrefillAdmission (totalTokens hostHitLength swaHostHitLength : ℤ)
    (truncationAlignSize : Option ℕ+) (hasChunkedReq : Bool) : Except AddReqResult Admission :=
  let prefixLen := req.prefixLen + hostHitLength
  let extendLen := req.fillLen - prefixLen
  let inputTokens := c.memory.ceil extendLen
  let chunkFitTokens := c.chunkFitTokens extendLen
  match c.memory.checkPrefill s.budget extendLen totalTokens (c.swaNewTokens req)
      swaHostHitLength s.remChunkTokens with
  | (false, _) => .error .noToken
  | (true, chunkTokensLimit) =>
    if s.remChunkTokens.isNone && !s.canRunList.isEmpty && decide (s.remInputTokens ≤ inputTokens)
    then .error .other
    else if chunkTokensLimit.all fun limit => decide (chunkFitTokens ≤ limit) then
      if s.tileStops c inputTokens then .error .other
      else .ok ⟨prefixLen, extendLen, c.clippedNewTokens req, false⟩
    else if hasChunkedReq && c.shortestPrefillFirst then .error .other
    else
      let extendLen := chunkLen c prefixLen (chunkTokensLimit.getD 0) truncationAlignSize
      if extendLen ≤ 0 then .error .other
      else if s.tileStops c extendLen then .error .other
      else .ok ⟨prefixLen, extendLen, 0, true⟩

/-- `_commit_prefill_admission`, for a request whose prefix has `prefixLen` tokens. -/
def commitPrefillAdmission (prefixLen : ℤ) (a : Admission) : Except Raised Adder :=
  if prefixLen ≠ a.prefixLen then .error .assertion
  else .ok (((s.append req a.prefixLen a.extendLen).updatePrefillBudget c a.extendLen
    a.maxNewTokens (c.computeCharge a.extendLen)).accountPrefillCacheAdmission c req a.prefixLen)

variable (a : Answers)

/-- `inc_lock_ref` on the prefix of the request. -/
def lock : Adder :=
  { s with budget := { s.budget with pools :=
    { s.budget.pools with
      fullEvictable := s.budget.pools.fullEvictable - a.pinnedFull
      swaEvictable := s.budget.pools.swaEvictable - a.pinnedSwa } } }

/-- `dec_lock_ref` on the prefix of the request. -/
def unlock : Adder :=
  { s with budget := { s.budget with pools :=
    { s.budget.pools with
      fullEvictable := s.budget.pools.fullEvictable + a.pinnedFull
      swaEvictable := s.budget.pools.swaEvictable + a.pinnedSwa } } }

/-- The admission after a load-back that brought in more than was promised: the approved budget
stays, and the work shrinks. -/
def shrinkAdmission (loaded : ℕ) (a : Admission) : Admission :=
  let prefixLen : ℤ := req.prefixLen + loaded
  let extendLen := min a.extendLen (req.fillLen - prefixLen)
  let isChunked := a.isChunked && decide (prefixLen + extendLen < req.fillLen)
  { prefixLen
    extendLen
    maxNewTokens := if a.isChunked && !isChunked then c.clippedNewTokens req else a.maxNewTokens
    isChunked }

/-- The load-back of a host prefix, and the commit after it, in the state under the lock. -/
def loadBackAndCommit (truncationAlignSize : Option ℕ+)
    (hasChunkedReq : Bool) (admission : Admission) : Except Raised Outcome :=
  match a.loadBack with
  | none => .ok ⟨.other, req, s.unlock a⟩
  | some lb =>
    let s := { s with budget := { s.budget with pools := lb.pools } }
    if 0 < lb.loaded ∧ lb.loaded < req.hostHitLength then .error .partialLoadBack
    else if lb.loaded < req.hostHitLength then
      -- nothing was loaded: the whole input has to be computed
      match s.selectPrefillAdmission c req (c.totalTokens req) 0 0 truncationAlignSize
          hasChunkedReq with
      | .error verdict => .ok ⟨verdict, req, s.unlock a⟩
      | .ok admission => do
        let s ← s.commitPrefillAdmission c req (req.prefixLen + lb.loaded) admission
        .ok ⟨s.budgetState c, req, s⟩
    else do
      let admission := if req.hostHitLength < lb.loaded
        then shrinkAdmission c req lb.loaded admission else admission
      let s ← s.commitPrefillAdmission c req (req.prefixLen + lb.loaded) admission
      .ok ⟨s.budgetState c, req, s⟩

/-- The part of `add_one_req` under the lock on the prefix. -/
def admitLocked (truncationAlignSize : Option ℕ+)
    (hasChunkedReq : Bool) (chunkTokensLimit : Option ℤ) : Except Raised Outcome :=
  match s.selectPrefillAdmission c req (c.totalTokens req) req.hostHitLength req.swaHostHitLength
      truncationAlignSize hasChunkedReq with
  | .error verdict => .ok ⟨verdict, req, s.unlock a⟩
  | .ok admission =>
    match s.applySwaTokenGate c (c.realInputTokens req) req chunkTokensLimit with
    | (some verdict, _, req') => .ok ⟨verdict, req', s.unlock a⟩
    | (none, _, _) =>
      if !a.allowsPrefill then .ok ⟨.other, req, s.unlock a⟩
      else if req.needsHostLoadBack then
        s.loadBackAndCommit c req a truncationAlignSize hasChunkedReq admission
      else do
        let s ← s.commitPrefillAdmission c req req.prefixLen admission
        .ok ⟨s.budgetState c, req, s⟩

/-- `add_one_req`. -/
def addOneReq (hasChunkedReq : Bool)
    (truncationAlignSize : Option ℕ+) : Except Raised Outcome :=
  if c.prefillMaxRequests.any fun x => decide (x ≤ s.canRunList.length) then .ok ⟨.other, req, s⟩
  else if req.ignoreEos && c.treeCacheDisabled then s.addOneReqIgnoreEos c req a.allowsPrefill
  else if c.memory.remainingTotal s.budget ≤ c.totalTokens req then .ok ⟨.noToken, req, s⟩
  else
    match s.applySwaTokenGate c (c.realInputTokens req) req s.remChunkTokens with
    | (some verdict, _, req') => .ok ⟨verdict, req', s⟩
    | (none, chunkTokensLimit, _) =>
      if s.remChunkTokens.isNone && !s.canRunList.isEmpty &&
          decide (s.remInputTokens ≤ c.realInputTokens req) then .ok ⟨.other, req, s⟩
      else (s.lock a).admitLocked c req a truncationAlignSize hasChunkedReq chunkTokensLimit

end Adder
end Sglang.Prefill
