import Sglang.Lib.Runs
import Sglang.Sticky.Cache
import Sglang.Sticky.Saved

/-!
# Scheduler and worker together

One request at a time: the scheduler looks up a prefix, the worker prefills the rest in chunks and
then verifies drafts, and the scheduler pins or drops what is left.  `step` is one event of such a
run over the joint state of the two parties — the cache of `sticky_last_sequence.py`, the boundary
store of `sm70_csa2_boundary.py` and the live device state.

What a forward does to the device state is a parameter `fwd`: given the state, the position it
starts at and the tokens it feeds, it returns the new state.  A verify step feeds the tokens it
commits; committing none leaves the device state alone.

The joint state carries one ghost, `stops`: for each stop, newest first, the token ids it stands
for and the rings the worker held when it was taken.  A prefill chunk is a stop at its end.  A
normal finish is a stop at the end of the pinned ids; the verify tip counts as its snapshot, unless
the prefill already stopped there.
-/

namespace Sglang.Sticky
variable {Key Rows Ring : Type} [DecidableEq Key]

/-- How far the running request has come. -/
inductive Phase
  /-- Looked up, or stopped after a chunk: the next chunk or the first verify step may run. -/
  | ready
  /-- A chunk ran and `cache_unfinished_req` was not called for it yet. -/
  | extended
  /-- Verify steps have begun. -/
  | decoding
  deriving DecidableEq, Repr

/-- The running request. -/
structure Turn where
  req : Req
  phase : Phase
  deriving DecidableEq, Repr

/-- The joint state. -/
structure Joint (Key Rows Ring : Type) where
  cache : Cache Key Rows Ring
  store : Store Ring
  live : Live Rows Ring
  turn : Option Turn
  /-- Ghost: the stops taken so far, newest first. -/
  stops : List (List Token × Paired Ring)

/-- One event of a run. -/
inductive Event
  /-- A request arrives and its prefix is looked up; `limit` caps the key. -/
  | request (req : Req) (limit : Option Nat)
  /-- The request leaves the waiting queue before it ran; the cache is not told. -/
  | leave
  /-- Slots are allocated ahead of a decode step. -/
  | reserve (seqLen committedLen : Nat)
  /-- A prefill chunk up to position `stop`. -/
  | extend (stop : Nat)
  /-- `cache_unfinished_req`, after the sampled tokens were appended. -/
  | unfinished (sampled : List Token)
  /-- A verify step on a sequence of length `prefixLen` that commits the given tokens. -/
  | verify (prefixLen : Nat) (commit : List Token)
  /-- A normal finish. -/
  | finish (output : List Token) (finishedLen : Option Nat)
  /-- An abort. -/
  | abort (output : List Token)
  deriving DecidableEq, Repr

/-- What a forward over some tokens, from a position on, does to the device state. -/
abbrev Forward (Rows Ring : Type) := Live Rows Ring → Nat → List Token → Live Rows Ring

/-- A verify step publishes the tokens it commits and nothing else. -/
def commitVerify (fwd : Forward Rows Ring) (live : Live Rows Ring) (prefixLen : Nat)
    (commit : List Token) : Live Rows Ring :=
  if commit = [] then live else fwd live prefixLen commit

/-- The ids a normal finish pins. -/
def finishedIds (req : Req) (output : List Token) (finishedLen : Option Nat) : List Token :=
  req.originInputIds ++ output.take (finishedLen.getD output.length)

namespace Joint

/-- A fresh record for a new request. -/
def arrive (c : Cache Key Rows Ring) (req : Req) : Cache Key Rows Ring × Req :=
  ({ c.setKv c.nextKv {} with nextKv := c.nextKv + 1 },
    { req with kv := c.nextKv, outputIds := [], extendEnd := none, prefixIndices := [] })

/-- The lookup key of a request. -/
def keyOf (req : Req) (limit : Option Nat) : RadixKey :=
  ⟨req.originInputIds, limit, req.extraKey, req.cacheSalt⟩

variable (cfg : SessionConfig Key) (fwd : Forward Rows Ring) (j : Joint Key Rows Ring) (t : Turn)

/-- `init_next_round_input`: the lookup of a new request. -/
def stepRequest (req : Req)
    (limit : Option Nat) : Option (Joint Key Rows Ring) :=
  if j.turn.isSome ∨ j.cache.pool.maxContextLen < req.originInputIds.length then none
  else
    let (c, req) := arrive j.cache req
    match c.matchPrefix cfg (keyOf req limit) req with
    | .error _ => none
    | .ok (c, req, _) => some { j with cache := c, turn := some ⟨req, .ready⟩ }

/-- `_forward_prefill` of one chunk, with the row growth before it. -/
def stepExtend (stop : Nat) : Option (Joint Key Rows Ring) :=
  let start := t.req.prefixIndices.length
  if t.phase ≠ .ready ∨ stop ≤ start ∨ t.req.originInputIds.length < stop then none
  else match j.cache.growRow t.req.kv stop stop with
    | none => none
    | some c => match csa2PrepareExtend cfg c.session j.store j.live start with
      | .error _ => none
      | .ok (session, store, live) =>
        let live := fwd live start ((t.req.originInputIds.take stop).drop start)
        some
          { cache := { c with session }
            store := csa2FinishForward store live stop true
            live
            turn := some ⟨{ t.req with extendEnd := some stop }, .extended⟩
            stops := (t.req.originInputIds.take stop, live.rings) :: j.stops }

def stepUnfinished (sampled : List Token) : Option (Joint Key Rows Ring) :=
  if t.phase ≠ .extended then none
  else match j.cache.cacheUnfinishedReq { t.req with outputIds := t.req.outputIds ++ sampled } with
    | .error _ => none
    | .ok (c, req) => some { j with cache := c, turn := some ⟨req, .ready⟩ }

/-- `_forward_decode`: prepare, verify, commit and take the tip. -/
def stepVerify (prefixLen : Nat)
    (commit : List Token) : Option (Joint Key Rows Ring) :=
  if t.phase = .extended ∨ t.req.extendEnd = none ∨ prefixLen < j.store.residentEnd then none
  else
    let live := commitVerify fwd j.live prefixLen commit
    some { j with
      store := csa2FinishForward (csa2PrepareDecode j.store) live (prefixLen + commit.length) false
      live
      turn := some { t with phase := .decoding } }

def stepFinish (output : List Token)
    (finishedLen : Option Nat) : Option (Joint Key Rows Ring) :=
  if t.req.extendEnd = none then none
  else
    let req := { t.req with outputIds := output, finishedLen, finishAbort := false }
    match j.cache.releaseKvCache req with
    | .error _ => none
    | .ok (c, _) =>
      let ids := finishedIds t.req output finishedLen
      some { j with
        cache := c
        turn := none
        stops := if some ids.length = t.req.extendEnd then j.stops
          else (ids, j.live.rings) :: j.stops }

def stepAbort (output : List Token) : Option (Joint Key Rows Ring) :=
  match j.cache.releaseKvCache { t.req with outputIds := output, finishAbort := true } with
  | .error _ => none
  | .ok (c, _) => some { j with cache := c, turn := none }

/-- One event; `none` when its guard fails or the code raises. -/
def step :
    Event → Option (Joint Key Rows Ring)
  | .request req limit => j.stepRequest cfg req limit
  | .leave => j.turn.bind fun t =>
      if t.req.extendEnd = none then some { j with turn := none } else none
  | .reserve seqLen committedLen => j.turn.bind fun t =>
      (j.cache.growRow t.req.kv seqLen committedLen).map fun c => { j with cache := c }
  | .extend stop => j.turn.bind fun t => j.stepExtend cfg fwd t stop
  | .unfinished sampled => j.turn.bind fun t => j.stepUnfinished t sampled
  | .verify prefixLen commit => j.turn.bind fun t => j.stepVerify fwd t prefixLen commit
  | .finish output finishedLen => j.turn.bind fun t => j.stepFinish t output finishedLen
  | .abort output => j.turn.bind fun t => j.stepAbort t output

/-! What a step that is not refused has done. -/

section
variable {cfg : SessionConfig Key} {fwd : Forward Rows Ring} {j j' : Joint Key Rows Ring} {t : Turn}

lemma stepRequest_some {req : Req} {limit : Option Nat}
    (h : j.stepRequest cfg req limit = some j') :
    j.turn = none ∧ req.originInputIds.length ≤ j.cache.pool.maxContextLen ∧
      ∃ c req' res, (arrive j.cache req).1.matchPrefix cfg (keyOf (arrive j.cache req).2 limit)
          (arrive j.cache req).2 = .ok (c, req', res) ∧
        j' = { j with cache := c, turn := some ⟨req', .ready⟩ } := by
  rw [stepRequest] at h
  split at h
  · cases h
  rename_i hguard
  rw [not_or, Bool.not_eq_true, Option.isSome_eq_false_iff, Option.isNone_iff_eq_none,
    not_lt] at hguard
  dsimp only at h
  split at h
  · cases h
  · cases h
    exact ⟨hguard.1, hguard.2, _, _, _, ‹_›, rfl⟩

lemma stepExtend_some {stop : Nat} (h : j.stepExtend cfg fwd t stop = some j') :
    t.phase = .ready ∧ t.req.prefixIndices.length < stop ∧ stop ≤ t.req.originInputIds.length ∧
      ∃ c session store live, j.cache.growRow t.req.kv stop stop = some c ∧
        csa2PrepareExtend cfg c.session j.store j.live t.req.prefixIndices.length =
          .ok (session, store, live) ∧
        j' =
          { cache := { c with session }
            store := csa2FinishForward store (fwd live t.req.prefixIndices.length
              ((t.req.originInputIds.take stop).drop t.req.prefixIndices.length)) stop true
            live := fwd live t.req.prefixIndices.length
              ((t.req.originInputIds.take stop).drop t.req.prefixIndices.length)
            turn := some ⟨{ t.req with extendEnd := some stop }, .extended⟩
            stops := (t.req.originInputIds.take stop, (fwd live t.req.prefixIndices.length
              ((t.req.originInputIds.take stop).drop t.req.prefixIndices.length)).rings) ::
              j.stops } := by
  rw [stepExtend] at h
  split at h
  · cases h
  rename_i hguard
  simp only [not_or, Decidable.not_not, not_le, not_lt] at hguard
  split at h
  · cases h
  split at h
  · cases h
  · cases h
    exact ⟨hguard.1, hguard.2.1, hguard.2.2, _, _, _, _, ‹_›, ‹_›, rfl⟩

omit [DecidableEq Key] in
lemma stepUnfinished_some {sampled : List Token} (h : j.stepUnfinished t sampled = some j') :
    t.phase = .extended ∧ ∃ c req, j.cache.cacheUnfinishedReq
        { t.req with outputIds := t.req.outputIds ++ sampled } = .ok (c, req) ∧
      j' = { j with cache := c, turn := some ⟨req, .ready⟩ } := by
  rw [stepUnfinished] at h
  split at h
  · cases h
  rename_i hphase
  split at h
  · cases h
  · cases h
    exact ⟨Decidable.not_not.1 hphase, _, _, ‹_›, rfl⟩

omit [DecidableEq Key] in
lemma stepFinish_some {output : List Token} {finishedLen : Option Nat}
    (h : j.stepFinish t output finishedLen = some j') :
    t.req.extendEnd ≠ none ∧ ∃ c req, j.cache.releaseKvCache
        { t.req with outputIds := output, finishedLen, finishAbort := false } = .ok (c, req) ∧
      j' = { j with
        cache := c
        turn := none
        stops := if some (finishedIds t.req output finishedLen).length = t.req.extendEnd then j.stops
          else (finishedIds t.req output finishedLen, j.live.rings) :: j.stops } := by
  rw [stepFinish] at h
  split at h
  · cases h
  dsimp only at h
  split at h
  · cases h
  · cases h
    exact ⟨‹_›, _, _, ‹_›, rfl⟩

omit [DecidableEq Key] in
lemma stepAbort_some {output : List Token} (h : j.stepAbort t output = some j') :
    ∃ c req, j.cache.releaseKvCache { t.req with outputIds := output, finishAbort := true } =
        .ok (c, req) ∧ j' = { j with cache := c, turn := none } := by
  rw [stepAbort] at h
  split at h
  · cases h
  · cases h
    exact ⟨_, _, ‹_›, rfl⟩

end

/-- A start: nothing pinned, an empty store, no hand-off; the pools, the catalog and the device
state are arbitrary. -/
structure Initial (j : Joint Key Rows Ring) : Prop where
  slot : j.cache.slot = none
  lastIds : j.cache.lastIds = none
  cuts : j.cache.cuts = []
  spill : j.cache.session.spill = none
  load : j.cache.session.load = none
  store : j.store = Store.empty
  turn : j.turn = none
  stops : j.stops = []

end Joint

/-! ## A small instance

Rows and rings are the token ids they were computed from, so a state shows which sequence it belongs
to.  The keys are the hashed bytes themselves. -/

/-- Sessions with the identity for a digest. -/
def sampleConfig (sessionsEnabled : Bool) : SessionConfig (List UInt8) := ⟨id, sessionsEnabled, 4⟩

/-- A forward overwrites everything from its start on. -/
def sampleForward : Forward (List Token) (List Token) := fun live start tokens =>
  let feed (s : Csa2State (List Token) (List Token)) : Csa2State (List Token) (List Token) :=
    ⟨s.rows.take start ++ tokens, s.ring.take start ++ tokens⟩
  ⟨feed live.target, live.draft.map feed⟩

/-- A start with `rows` free rows of 64 positions and 128 slots, one to a page. -/
def sampleStart (rows : Nat) : Joint (List UInt8) (List Token) (List Token) where
  cache :=
    { pool := ⟨64, fun _ _ => 0, List.range' 1 rows⟩
      alloc := ⟨1, false, List.range' 1 128, []⟩
      heap := fun _ => {}
      nextKv := 0
      slot := none
      lastIds := none
      lastExtraKey := none
      lastCacheSalt := none
      cuts := []
      session := SessionState.empty }
  store := Store.empty
  live := ⟨⟨[], []⟩, none⟩
  turn := none
  stops := []

/-- The ids `0, 1, ..., n - 1`. -/
def countTo (n : Nat) : List Token := (List.range n).map Int.ofNat

/-- A request for some ids. -/
def sampleReq (ids : List Token) : Req where
  rid := some ['r']
  kv := 0
  originInputIds := ids
  outputIds := []
  extendEnd := none
  prefixIndices := []
  extraKey := none
  cacheSalt := none
  finishedLen := none
  finishAbort := false

lemma initial_sampleStart (rows : Nat) : (sampleStart rows).Initial :=
  ⟨rfl, rfl, rfl, rfl, rfl, rfl, rfl, rfl⟩

/-- The error a computation ends with, if it ends with one. -/
def faultOf {δ α : Type} : Except δ α → Option δ
  | .error e => some e
  | .ok _ => none

end Sglang.Sticky
