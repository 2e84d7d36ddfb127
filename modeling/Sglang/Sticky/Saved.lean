import Sglang.Sticky.Boundary

/-!
# Saved conversations

`sm70_csa2_session.py` keeps conversations on disk: a catalog record with the token ids and the
cuts, written by the scheduler, and a blob with the GPU bytes, written by the worker.  The two
sides talk through a hand-off of two cells, `_SPILL` and `_LOAD`, that the scheduler sets and the
next extend takes.

The digest of `session_key` is a parameter, applied to the very bytes the source feeds it, and keys
are an arbitrary type with decidable equality.  A file's modification time only orders the catalog,
so the catalog is a list with the most recently touched record last.  Files of another schema are
invisible to every function here and are left out.
-/

namespace Sglang.Sticky
open List

/-- What is fixed over a run: the digest, whether a session directory is set, and how many
conversations it keeps. -/
structure SessionConfig (Key : Type) where
  /-- `blake2s(...).hexdigest()`. -/
  digest : List UInt8 → Key
  sessionsEnabled : Bool
  sessionKeep : Nat

/-- Eight little-endian bytes of a signed 64-bit integer. -/
def littleEndian (t : Int) : List UInt8 :=
  (List.range 8).map fun i => UInt8.ofNat ((BitVec.ofInt 64 t >>> (8 * i)).toNat)

/-- `x or None` for an optional string. -/
def orNone (s : Option String) : Option String := if s = some "" then none else s

/-- `(x or "").encode()`. -/
def encodeOr (s : Option String) : List UInt8 := (s.getD "").toUTF8.data.toList

/-- The bytes hashed into a session key. -/
def sessionBytes (ids : List Token) (extraKey cacheSalt : Option String) : List UInt8 :=
  littleEndian ids.length ++ ids.flatMap littleEndian ++ [0] ++ encodeOr extraKey ++ [0] ++
    encodeOr cacheSalt

def sessionKey {Key : Type} (cfg : SessionConfig Key) (ids : List Token)
    (extraKey cacheSalt : Option String) : Key :=
  cfg.digest (sessionBytes ids extraKey cacheSalt)

/-- A catalog record. -/
structure SessionRecord (Key : Type) where
  key : Key
  ids : List Token
  cuts : List Nat
  extraKey : Option String
  cacheSalt : Option String
  deriving DecidableEq, Repr

/-- What one backend holds on the device: the compressed rows, and the ring with its pending
pair. -/
structure Csa2State (Rows Ring : Type) where
  rows : Rows
  ring : Ring
  deriving DecidableEq, Repr

/-- The payload `save_resident` writes. -/
structure Blob (Rows Ring : Type) where
  residentEnd : Nat
  order : List Nat
  labels : Paired (Csa2State Rows Ring)
  history : List (Nat × Paired Ring)
  deriving DecidableEq, Repr

/-- The hand-off cells and the session directory. -/
structure SessionState (Key Rows Ring : Type) where
  spill : Option Key
  load : Option Key
  metas : List (SessionRecord Key)
  blobs : List (Key × Blob Rows Ring)
  deriving DecidableEq, Repr

namespace SessionState
variable {Key Rows Ring : Type} [DecidableEq Key]

/-- No hand-off and an empty directory. -/
def empty : SessionState Key Rows Ring where
  spill := none
  load := none
  metas := []
  blobs := []

variable (cfg : SessionConfig Key) (s : SessionState Key Rows Ring) (key : Key)

def requestSpill : SessionState Key Rows Ring := { s with spill := some key }

def requestLoad : SessionState Key Rows Ring := { s with load := some key }

/-- `take_handoff`: both cells, emptied. -/
def takeHandoff : (Option Key × Option Key) × SessionState Key Rows Ring :=
  ((s.spill, s.load), { s with spill := none, load := none })

/-- `image_ready`: the blob file exists. -/
def imageReady : Bool := cfg.sessionsEnabled && (s.blobs.lookup key).isSome

def loadMeta : Option (SessionRecord Key) :=
  if cfg.sessionsEnabled then s.metas.find? fun r => r.key = key else none

/-- `list_sessions`: the catalog, least recently touched first. -/
def listSessions : List (SessionRecord Key) := if cfg.sessionsEnabled then s.metas else []

/-- `_delete`: both files of a conversation. -/
def delete : SessionState Key Rows Ring :=
  { s with
    metas := s.metas.filter fun r => r.key ≠ key
    blobs := s.blobs.filter fun b => b.1 ≠ key }

/-- `evict_lru`: drop the least recently touched conversations that are over the limit. -/
def evictLru (keepKey : Key) : SessionState Key Rows Ring :=
  let records := s.listSessions cfg
  let overflow := records.length - cfg.sessionKeep
  (((records.filter fun r => r.key ≠ keepKey).take overflow).map fun r => r.key).foldl delete s

/-- The cuts `remember` writes: the positive ones, with the end of the ids among them. -/
def rememberedCuts (ids : List Token) (cuts : List Nat) : List Nat :=
  let kept := cuts.filter fun cut => 0 < cut
  if ids ≠ [] ∧ kept.getLast? ≠ some ids.length ∧ ids.length ∉ kept then kept ++ [ids.length]
  else kept

/-- `remember`: record the token catalog of a conversation, then make room. -/
def remember
    (ids : List Token) (cuts : List Nat) (extraKey cacheSalt : Option String) :
    SessionState Key Rows Ring :=
  if cfg.sessionsEnabled then
    let record := ⟨key, ids, rememberedCuts ids cuts, extraKey, cacheSalt⟩
    evictLru cfg { s with metas := (s.metas.filter fun r => r.key ≠ key) ++ [record] } key
  else s

/-- `_touch` of a catalog file: it becomes the newest. -/
def touchMeta : SessionState Key Rows Ring :=
  { s with
    metas := (s.metas.filter fun r => r.key ≠ key) ++ s.metas.filter fun r => r.key = key }

/-- The blob of a store and the device state it describes. -/
def blobOf (store : Store Ring) (live : Paired (Csa2State Rows Ring)) : Blob Rows Ring where
  residentEnd := store.residentEnd
  order := store.order
  labels := live
  history := store.history

/-- `save_resident`: nothing to write for a store that has seen nothing. -/
def saveResident (store : Store Ring)
    (live : Paired (Csa2State Rows Ring)) (key : Key) : SessionState Key Rows Ring :=
  if !cfg.sessionsEnabled ∨ (store.residentEnd = 0 ∧ store.history = [] ∧ store.tipLen = 0) then s
  else { s with
    blobs := (s.blobs.filter fun b => b.1 ≠ key) ++ [(key, blobOf store live)] }

/-- `load_resident`: copy a saved conversation onto the device; `none` when it has no blob. -/
def loadResident (store : Store Ring)
    (live : Paired (Csa2State Rows Ring)) (key : Key) :
    Option (SessionState Key Rows Ring × Store Ring × Paired (Csa2State Rows Ring)) :=
  if !cfg.sessionsEnabled then none
  else match s.blobs.lookup key with
    | none => none
    | some blob =>
      some (s.touchMeta key,
        { store with
          history := blob.order.filterMap fun n => (blob.history.lookup n).map fun snap => (n, snap)
          order := blob.order
          residentEnd := blob.residentEnd
          tip := none
          tipLen := 0
          tipFromExtend := false }, blob.labels.copyInto live)

end SessionState

/-! ## The worker's entry points

The functions of `sm70_csa2_boundary.py` that a forward calls: `csa2_prepare_extend` before a
prefill, `csa2_prepare_decode` before a verify step and `csa2_finish_forward` after either.  The
first one is where the hand-off of the scheduler is taken, so it works on the session state as well
as on the store and on the live device state. -/

variable {Key Rows Ring : Type}

/-- The live device state of the backends. -/
abbrev Live (Rows Ring : Type) := Paired (Csa2State Rows Ring)

/-- The part of the live state a checkpoint copies. -/
def Paired.rings (live : Live Rows Ring) : Paired Ring where
  target := live.target.ring
  draft := live.draft.map fun s => s.ring

/-- Overwrite the rings and leave the rows. -/
def Paired.withRings (live : Live Rows Ring) (rings : Paired Ring) : Live Rows Ring where
  target := { live.target with ring := rings.target }
  draft := match live.draft, rings.draft with
    | some s, some r => some { s with ring := r }
    | s, _ => s

lemma Paired.rings_withRings_copyInto (live : Live Rows Ring) (snap : Paired Ring) :
    (live.withRings (snap.copyInto live.rings)).rings = snap.copyInto live.rings := by
  obtain ⟨t, d⟩ := live
  obtain ⟨st, sd⟩ := snap
  cases d <;> cases sd <;> rfl

/-- File the tip; first name it with the scheduler's length `n` if it is verify slack past it. -/
def Store.fileTip (store : Store Ring) (slack : Bool) (n : Nat) : Store Ring :=
  let store := if slack then store.relabelTip n else store
  if 0 < store.tipLen then store.freezeTip else store

/-- The end of `_file_spill_under_pin`: if one filed image runs past the pin, it is filed under the
pin instead. -/
def Store.moveOntoPin (store : Store Ring) (pin : Nat) : Store Ring :=
  if pin = 0 ∨ pin ∈ store.keys ∨ pin = store.residentEnd then store
  else match store.order.filter fun n => pin < n with
    | [workerLen] =>
      match store.history.lookup workerLen with
      | none => store
      | some snap =>
        { store with
          history := store.history.filter (fun h => h.1 != workerLen && h.1 != pin) ++ [(pin, snap)]
          order := store.order.map fun n => if n = workerLen then pin else n
          residentEnd := if store.residentEnd = workerLen then pin else store.residentEnd
          tipLen := if store.tipLen = workerLen then pin else store.tipLen }
    | _ => store

variable [DecidableEq Key]

variable (cfg : SessionConfig Key) (session : SessionState Key Rows Ring) (store : Store Ring)
  (live : Live Rows Ring) (start : Nat)

/-- `_file_spill_under_pin`: name the verify image with the scheduler pin before it is written
out. -/
def fileSpillUnderPin (key : Key) : Store Ring :=
  let pin := match session.loadMeta cfg key with
    | none => 0
    | some record => record.ids.length
  (store.fileTip (decide (0 < pin) && store.verifyTipIsPinSlack pin) pin).moveOntoPin pin

/-- The tail of `csa2_prepare_extend`, once the hand-off is done: file the tip, under the pin if it
is verify slack, and resume at `start`. -/
def resumeAt : Except (BoundaryFault Key) (Store Ring × Live Rows Ring) :=
  let store := store.fileTip (store.verifyTipIsPinSlack start) start
  if start = store.residentEnd then .ok (store, live)
  else if store.residentEnd < start then .error (.startsPastResident start store.residentEnd)
  else do
    let (store, rings) ← store.restore live.rings start
    return (store, live.withRings rings)

/-- Write the resident image out, if the scheduler asked for it. -/
def takeSpill : Option Key → SessionState Key Rows Ring × Store Ring
  | none => (session, store)
  | some key =>
    let store := fileSpillUnderPin cfg session store key
    (session.saveResident cfg store live key, store)

/-- Read a saved image back, if the scheduler asked for one. -/
def takeLoad :
    Option Key →
      Except (BoundaryFault Key) (SessionState Key Rows Ring × Store Ring × Live Rows Ring)
  | none => .ok (session, store, live)
  | some key => match session.loadResident cfg store live key with
    | none => .error (.sessionLoadMissed key start)
    | some r => .ok r

/-- `csa2_prepare_extend`, called before an extend forward.  `start` is the cached prefix
length. -/
def csa2PrepareExtend :
    Except (BoundaryFault Key) (SessionState Key Rows Ring × Store Ring × Live Rows Ring) :=
  let ((spill, load), session) := session.takeHandoff
  let (session, store) := takeSpill cfg session store live spill
  if start = 0 then .ok (session, Store.empty, live)
  else do
    let (session, store, live) ← takeLoad cfg session store live start load
    let (store, live) ← resumeAt store live start
    return (session, store, live)

/-- Freeze a just-finished prefill before decode overwrites the tip. -/
def csa2PrepareDecode : Store Ring := if store.tipFromExtend then store.freezeTip else store

/-- `csa2_finish_forward`. -/
def csa2FinishForward (seqLen : Nat)
    (fromExtend : Bool) : Store Ring :=
  store.backupTip live.rings seqLen fromExtend

end Sglang.Sticky
