import Sglang.Output.Messages

/-!
# From the accepted token to the text that is sent

After each step the scheduler hands every request to `_GenerationStreamAccumulator.accept`, which
decides whether the request's new tokens go out now: a finished request always, a streaming one at
its interval unless the text may be in the middle of a stop string, and any other one at the forced
interval.  The message goes to the detokenizer, and the text that comes back is appended to what the
client has.  `serve` is this whole way, one accepted token after the other.

Beam search and the server mode in which another process detokenizes are left out, and so are the
fields of a message that the text does not depend on.
-/

namespace Sglang.Output
open Lib Detokenizer List

/-- A request with what it needs for sending.  `surr_offset` and `read_offset` are set together. -/
structure StreamReq extends Req where
  rid : ℕ
  originInputIdsUnpadded : List ℤ
  stream : Bool
  offsets : Option (ℕ × ℕ)
  surrAndDecodeIds : List ℤ
  curDecodeIdsLen : ℕ
  sendDecodeIdOffset : ℕ
  finishedOutput : Bool

/-- The intervals of `_GenerationStreamAccumulator`. -/
structure StreamConfig where
  defaultStreamInterval : ℕ
  defaultForceStreamInterval : ℕ

/-- The interval at which a streaming request is sent. -/
def Req.streamInterval (cfg : StreamConfig) (r : Req) : ℕ :=
  match r.samplingParams.streamInterval with
  | some n => if n = 0 then cfg.defaultStreamInterval else n
  | none => cfg.defaultStreamInterval

/-- Whether a request that is not finished is sent now. -/
def Req.shouldOutput (cfg : StreamConfig) (stream : Bool) (r : Req) : Bool :=
  if stream then
    let interval := r.streamInterval cfg
    let due :=
      if 1 < interval then decide (r.outputIds.length % interval = 1)
      else decide (r.outputIds.length % interval = 0)
    due && !r.checkMatchStopStrPrefix
  else decide (r.outputIds.length % cfg.defaultForceStreamInterval = 0)

namespace StreamReq

/-- `init_incremental_detokenize`: the ids to decode, and where the output begins in them. -/
def initIncrementalDetokenize (r : StreamReq) : StreamReq × (List ℤ × ℕ) :=
  let outputIds := r.outputIdsThroughStop
  match r.offsets with
  | none =>
    let readOffset := r.originInputIdsUnpadded.length
    let surrOffset := readOffset - 5
    let ids := r.originInputIdsUnpadded.drop surrOffset ++ outputIds
    ({ r with
        offsets := some (surrOffset, readOffset)
        surrAndDecodeIds := ids
        curDecodeIdsLen := outputIds.length }, ids, readOffset - surrOffset)
  | some (surrOffset, readOffset) =>
    let ids := r.surrAndDecodeIds ++ outputIds.drop r.curDecodeIdsLen
    ({ r with
        surrAndDecodeIds := ids
        curDecodeIdsLen := outputIds.length }, ids, readOffset - surrOffset)

/-- The message with what has not been sent. -/
def send (r : StreamReq) : StreamReq × Item :=
  let out := r.initIncrementalDetokenize
  ({ out.1 with sendDecodeIdOffset := out.2.1.length },
    { rid := r.rid
      decodedText := r.decodedText
      decodeIds := out.2.1.drop r.sendDecodeIdOffset
      readOffset := out.2.2
      finishedReason := r.finishedReason
      noStopTrim := r.samplingParams.noStopTrim })

/-- The mark that a finished request has been sent. -/
def markFinished (r : StreamReq) : StreamReq :=
  { r with
    finishedOutput := true
    finishedLen := some (r.finishedLen.getD r.outputIds.length) }

/-- `_GenerationStreamAccumulator.accept`.  A request is not handed over again once it is
finished, so the assertion on `finished_output` holds. -/
def accept (cfg : StreamConfig) (r : StreamReq) : StreamReq × Option Item :=
  if r.finished then
    let out := r.markFinished.send
    (out.1, some out.2)
  else if r.toReq.shouldOutput cfg r.stream then
    let out := r.send
    (out.1, some out.2)
  else (r, none)

/-- One accepted token. -/
def acceptToken (py : Python) (r : StreamReq) (t : ℤ) : StreamReq :=
  { r with toReq := (r.toReq.push [t]).updateFinishState py 1 }

end StreamReq

/-- A message that the detokenizer may get. -/
def Detokenizer.decodeItem? (d : Detokenizer) (status : Option DecodeStatus) :
    Option Item → Text × Option DecodeStatus
  | none => ([], status)
  | some item => d.decodeItem status item

/-- The tokens of a request are accepted one after the other until it finishes; the result is the
text that the client has then, and the request. -/
def serve (py : Python) (cfg : StreamConfig) (d : Detokenizer) :
    StreamReq → Option DecodeStatus → List ℤ → Text × StreamReq
  | r, _, [] => ([], r)
  | r, status, t :: ts =>
    let r' := r.acceptToken py t
    let sent := r'.accept cfg
    let out := d.decodeItem? status sent.2
    if r'.finished then (out.1, sent.1)
    else
      let rest := serve py cfg d sent.1 out.2 ts
      (out.1 ++ rest.1, rest.2)

end Sglang.Output
