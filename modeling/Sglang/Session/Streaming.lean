import Sglang.Lib.Buffers
import Sglang.Lib.Runs

/-!
# Streaming sessions

`Session` of `session/session_controller.py` in streaming mode, with the token arrays of its
requests (`managers/schedule_batch.py`).  A turn appends to the history of the session, and does so
in place: the new request takes over the arrays of the last finished one, cut back to the lengths
recorded when that one finished.  Arrays are numbered buffers, so that a request and its predecessor
can hold the same one.

Left out: multimodal inputs, timeouts and the parameters of a request that are only handed on.
-/

namespace Sglang.Session
open Lib

abbrev Arrays := Buffers ℤ

/-- The fields of `Req` that a session reads or writes. -/
structure Req where
  originInputIds : ℕ
  originInputIdsUnpadded : ℕ
  fullUntruncatedFillIds : ℕ
  outputIds : List ℤ
  maxNewTokens : ℕ
  /-- `to_finish` is set -/
  toFinish : Bool

/-- The lengths of the arrays of the last request, as of its `finish_req`. -/
structure Committed where
  origin : ℕ
  unpadded : ℕ
  fill : ℕ

structure State where
  arrays : Arrays
  /-- the single entry of `req_nodes` -/
  lastReq : Option Req
  inflight : Bool
  committed : Option Committed

def State.start : State where
  arrays := .empty
  lastReq := none
  inflight := false
  committed := none

/-- `session_params` -/
structure Params where
  replace : Bool
  dropPreviousOutput : Bool
  offset : ℤ

/-- A plain append. -/
def Params.append : Params where
  replace := false
  dropPreviousOutput := false
  offset := 0

/-- What the checks of a streaming session refuse. -/
inductive Reject
  | active
  | replace
  | dropPreviousOutput
  | offset
  | noInput
  deriving DecidableEq

def Reject.message : Reject → String
  | .active => "Streaming session already has an active request."
  | .replace => "Streaming sessions do not support replace."
  | .dropPreviousOutput => "Streaming sessions do not support drop_previous_output."
  | .offset => "Streaming sessions do not support offset."
  | .noInput => "A session request must contain input tokens after restoring history."

/-- `_strip_bos_token`; `bos` is the tokenizer's, if there is one. -/
def stripBos (bos : Option ℤ) : List ℤ → List ℤ
  | [] => []
  | t :: ts => if some t = bos then ts else t :: ts

/-! ## Arrays of a new request -/

/-- `last_req.output_ids[: last_req.sampling_params.max_new_tokens]` -/
def Req.outTail (r : Req) : List ℤ := r.outputIds.take r.maxNewTokens

/-- `_share_token_arrays`: the arrays, and the numbers of the origin, of the unpadded origin and of
the carried fill array. -/
def shareTokenArrays (a : Arrays) (c : Committed) (last : Req) (newInputIds : List ℤ) :
    Arrays × ℕ × ℕ × Option ℕ :=
  let outTail := last.outTail
  let inputIds := last.originInputIds
  let a := a.truncate inputIds c.origin
  let unpadded := last.originInputIdsUnpadded
  let a := if unpadded = inputIds then a else a.truncate unpadded c.unpadded
  let fill := last.fullUntruncatedFillIds
  let (a, carry) :=
    if fill = inputIds ∨ fill = unpadded then (a, none)
    else
      let a := a.truncate fill c.fill
      let baked : ℤ := (a.read fill).length - (a.read inputIds).length
      if 0 ≤ baked ∧ baked ≤ outTail.length then
        ((a.extend fill (outTail.drop baked.toNat)).extend fill newInputIds, some fill)
      else (a, none)
  let a := (a.extend inputIds outTail).extend inputIds newInputIds
  let a := if unpadded = inputIds then a
    else (a.extend unpadded outTail).extend unpadded newInputIds
  (a, inputIds, unpadded, carry)

/-- `_concat_token_arrays`, for a plain append. -/
def concatTokenArrays (a : Arrays) (last : Req) (newInputIds : List ℤ) : Arrays × ℕ × ℕ :=
  let inputIds := a.next
  let a := a.alloc (a.read last.originInputIds ++ last.outTail ++ newInputIds)
  let unpadded := a.next
  let a := a.alloc (a.read last.originInputIdsUnpadded ++ last.outTail ++ newInputIds)
  (a, inputIds, unpadded)

/-- `set_finish_with_abort`: the origin becomes an array of one token. -/
def setFinishWithAbort (a : Arrays) (r : Req) : Arrays × Req :=
  (a.alloc [0], { r with originInputIds := a.next, toFinish := true })

/-- The checks of a streaming session before it looks at its history. -/
def State.reject (s : State) (p : Params) : Option Reject :=
  if s.inflight then some .active
  else if p.replace then some .replace
  else if p.dropPreviousOutput then some .dropPreviousOutput
  else if p.offset ≠ 0 then some .offset
  else none

/-- The request that `create_req` returns. -/
structure Created where
  state : State
  req : Req
  /-- the fill array was carried over -/
  carried : Bool
  rejected : Option Reject

/-- The arrays of a new request: the history it appends to, if any, and its input. -/
def State.newArrays (s : State) (bos : Option ℤ) (last : Option Req) (inputIds : List ℤ) :
    Arrays × ℕ × ℕ × Option ℕ :=
  match last with
  | none => (s.arrays.alloc inputIds, s.arrays.next, s.arrays.next, none)
  | some last =>
    let inputIds := stripBos bos inputIds
    match s.committed with
    | some c => shareTokenArrays s.arrays c last inputIds
    | none =>
      let (a, origin, unpadded) := concatTokenArrays s.arrays last inputIds
      (a, origin, unpadded, none)

/-- The constructor of `Req`, and the fill array that was carried over. -/
def newReq (a : Arrays) (origin unpadded : ℕ) (carry : Option ℕ) (maxNewTokens : ℕ) :
    Arrays × Req :=
  let unpadded := if a.read unpadded = [] then origin else unpadded
  let (a, fill) :=
    match carry with
    | some fill => (a, fill)
    | none => (a.alloc [], a.next)
  (a,
    { originInputIds := origin
      originInputIdsUnpadded := unpadded
      fullUntruncatedFillIds := fill
      outputIds := []
      maxNewTokens := maxNewTokens
      toFinish := false })

/-- `create_req` -/
def State.createReq (s : State) (bos : Option ℤ) (p : Params) (inputIds : List ℤ)
    (maxNewTokens : ℕ) : Created :=
  let rejected := s.reject p
  let (a, origin, unpadded, carry) :=
    s.newArrays bos (if rejected = none then s.lastReq else none) inputIds
  let rejected := if rejected = none ∧ a.read origin = [] then some .noInput else rejected
  let (a, req) := newReq a origin unpadded carry maxNewTokens
  match rejected with
  | some reject =>
    let (a, req) := setFinishWithAbort a req
    { state := { s with arrays := a }
      req := req
      carried := carry.isSome
      rejected := some reject }
  | none =>
    { state := { s with arrays := a, inflight := true }
      req := req
      carried := carry.isSome
      rejected := none }

/-- `finish_req` -/
def State.finishReq (s : State) (r : Req) : State :=
  { s with
    inflight := false
    lastReq := some r
    committed := some
      { origin := (s.arrays.read r.originInputIds).length
        unpadded := (s.arrays.read r.originInputIdsUnpadded).length
        fill := (s.arrays.read r.fullUntruncatedFillIds).length } }

/-- `abort_req` -/
def State.abortReq (s : State) : State := { s with inflight := false }

/-! ## Progress of a request -/

/-- `_refresh_fill_ids` -/
def refreshFillIds (a : Arrays) (r : Req) : Arrays × Req :=
  let nHaveOutput : ℤ := (a.read r.fullUntruncatedFillIds).length - (a.read r.originInputIds).length
  if r.fullUntruncatedFillIds ≠ r.originInputIds ∧ 0 ≤ nHaveOutput ∧
      nHaveOutput ≤ r.outputIds.length then
    (a.extend r.fullUntruncatedFillIds (r.outputIds.drop nHaveOutput.toNat), r)
  else
    (a.alloc (a.read r.originInputIds ++ r.outputIds), { r with fullUntruncatedFillIds := a.next })

/-- `update_finish_state` for a request that is not aborted: the length of its output if it is
finished.  `stop` is the length through a stop that the checks of the vocabulary, of strings or of
tokens found. -/
def Req.finishedLen (r : Req) (stop : Option ℕ) (grammarTerminated : Bool) : Option ℕ :=
  match stop with
  | some n => some (if r.maxNewTokens < n then r.maxNewTokens else n)
  | none =>
    if r.maxNewTokens ≤ r.outputIds.length then some r.maxNewTokens
    else if grammarTerminated then some r.outputIds.length
    else none

lemma Req.finishedLen_le {r : Req} {stop : Option ℕ} {terminated : Bool} {n : ℕ}
    (h : r.finishedLen stop terminated = some n) : n ≤ r.maxNewTokens := by
  unfold Req.finishedLen at h
  cases stop with
  | some m =>
    grind
  | none =>
    grind

/-- A normal finish in `try_cache_finished_req`: `_trim_overshoot` cuts the output, then
`finish_req`. -/
def State.finishTurn (s : State) (r : Req) (finishedLen : ℕ) : State :=
  s.finishReq { r with outputIds := r.outputIds.take finishedLen }

end Sglang.Session
