import Sglang.Lib.Runs

/-!
# The slots of a beam group

`beam_search/fork.py` and what `BeamGroup` and `BeamCoordinator` do with KV slots and rows.  The
rows of a group decode in lockstep.  A selection gives each row the window of its parent, so that
several rows name one slot and some slots are named by none; these orphans are staged with the tick
of the forward and freed by a later commit.

The part of `req_to_token` that belongs to the group is kept as the list of the windows of its rows,
leader first.  `slots` and `rows` list what the group has taken and not given back; to give back
anything else, or a slot that a row still names, is a fault.  Tokens and scores are left out: of a
selection there are the parents and the number of survivors.
-/

namespace Sglang.Beam

/-- `StagedOrphans` -/
structure Staged where
  tick : ℕ
  oldMapping : List (List ℕ)
  newMapping : List (List ℕ)

/-- `collect_orphan_slots` -/
def collectOrphanSlots (oldMapping newMapping : List (List ℕ)) : List ℕ :=
  oldMapping.flatten.dedup.filter (· ∉ newMapping.flatten)

def Staged.orphans (e : Staged) : List ℕ := collectOrphanSlots e.oldMapping e.newMapping

/-- What the rows depend on in a `SelectResult`. -/
structure Selection where
  numSurvivors : ℕ
  parentIdx : List ℕ

structure Group where
  beamWidth : ℕ
  maxNewTokens : ℕ
  promptLen : ℕ
  /-- `leader.kv.kv_allocated_len`, and `kv_committed_len` as well: nothing is speculative -/
  allocatedLen : ℕ
  numGenerated : ℕ
  finished : Bool
  /-- the ticks of the staged selections, and whether they end the search -/
  pendingSteps : List (ℕ × Bool)
  /-- the member rows, from the spawn to their release -/
  memberRows : Option (List ℕ)
  /-- `req_to_token[all_rows, prompt_len:allocated_len]` -/
  windows : List (List ℕ)
  pendingOrphans : List Staged
  slotsFreed : ℕ
  retired : Bool
  /-- the group has rows in the tail of the decode batch -/
  inTail : Bool

/-- A group and its share of the pools. -/
structure World extends Group where
  /-- the slots of the prompt, which are the leader's -/
  prompt : List ℕ
  slots : List ℕ
  rows : List ℕ
  /-- every slot the group has freed -/
  freed : List ℕ

/-- What is freed is not held, or still in use. -/
inductive Fault
  | slot
  | row
  deriving DecidableEq

def World.start (beamWidth maxNewTokens : ℕ) (prompt : List ℕ) : World where
  beamWidth := beamWidth
  maxNewTokens := maxNewTokens
  promptLen := prompt.length
  allocatedLen := prompt.length
  numGenerated := 0
  finished := false
  pendingSteps := []
  memberRows := none
  windows := []
  pendingOrphans := []
  slotsFreed := 0
  retired := false
  inTail := false
  prompt := prompt
  slots := []
  rows := []
  freed := []

namespace World
variable (w : World)

/-- `extra_uncached_tokens` -/
def extraUncachedTokens : ℤ :=
  if w.memberRows.isNone then 0
  else
    let window : ℤ := w.allocatedLen - w.promptLen
    w.beamWidth * window - w.slotsFreed - window

/-- `free` of the slot allocator. -/
def free (l : List ℕ) : Except Fault World :=
  if l.Nodup ∧ ∀ s ∈ l, s ∈ w.slots ∧ s ∉ w.windows.flatten then
    .ok { w with slots := w.slots.filter (· ∉ l), freed := w.freed ++ l }
  else .error .slot

/-- `free_rows` of the row pool. -/
def freeRows (l : List ℕ) : Except Fault World :=
  if l.Nodup ∧ ∀ r ∈ l, r ∈ w.rows then .ok { w with rows := w.rows.filter (· ∉ l) }
  else .error .row

/-! ## Orphans and rows -/

/-- The loop of `_reclaim_orphans`. -/
def reclaimEach (w : World) : List Staged → Except Fault World
  | [] => .ok w
  | e :: es =>
    if e.orphans = [] then reclaimEach w es
    else do
      let w ← { w with slotsFreed := w.slotsFreed + e.orphans.length }.free e.orphans
      reclaimEach w es

/-- `_reclaim_orphans`; without a tick everything is drained. -/
def reclaimOrphans (upToTick : Option ℕ) : Except Fault World :=
  let due := fun e : Staged => upToTick.all fun t => decide (e.tick ≤ t)
  reclaimEach { w with pendingOrphans := w.pendingOrphans.filter fun e => ¬ due e }
    (w.pendingOrphans.filter due)

/-- `fork.free_member_rows`; the windows are given up with the rows. -/
def freeMemberRows : Except Fault World :=
  match w.memberRows with
  | none => .ok w
  | some rows => do
    let slots := w.windows.flatten.dedup
    let w := { w with windows := [] }
    let w ← if w.promptLen < w.allocatedLen then
        ({ w with allocatedLen := w.promptLen } : World).free slots
      else .ok w
    let w ← w.freeRows rows
    .ok { w with memberRows := none }

/-- `_retire_group` -/
def retireGroup : Except Fault World :=
  if w.retired then .ok w
  else do
    let w ← w.reclaimOrphans none
    .ok { w with retired := true, pendingSteps := [] }

/-- `_finish_group`, and `_abort_group` once the state is set. -/
def finishGroup : Except Fault World := do
  let w ← w.reclaimOrphans none
  let w ← w.freeMemberRows
  w.retireGroup

/-- `free_member_rows` as `retract_decode` calls it, then `retire_group`. -/
def retract : Except Fault World := do
  let w ← w.freeMemberRows
  { w with finished := true }.retireGroup

/-! ## The two halves of a tick -/

/-- `next_step_is_final` -/
def nextStepIsFinal : Bool := w.maxNewTokens ≤ w.numGenerated + 1

/-- A selection is staged. -/
def stage (tick : ℕ) (sel : Selection) : World :=
  { w with
    numGenerated := w.numGenerated + 1
    pendingSteps := w.pendingSteps ++
      [(tick, w.nextStepIsFinal || decide (sel.numSurvivors < w.beamWidth))] }

/-- `select_leader_prefill`; `rows` are those the row pool gives, if members are spawned. -/
def selectLeaderPrefill (tick : ℕ) (sel : Selection) (rows : List ℕ) : World :=
  if w.nextStepIsFinal then w.stage tick sel
  else
    { w.stage tick sel with
      memberRows := some rows
      rows := rows
      windows := List.replicate w.beamWidth [] }

/-- `append_beam_tail` and `alloc_for_decode`: each row gets a fresh slot. -/
def allocForDecode (fresh : List ℕ) : World :=
  { w with
    inTail := true
    allocatedLen := w.allocatedLen + 1
    windows := List.zipWith (fun window s => window ++ [s]) w.windows fresh
    slots := w.slots ++ fresh }

/-- `select_and_relay_decode`: `_select_group` and `_apply_survivors`.  The batch is stripped of its
tail before it is used again. -/
def selectAndRelayDecode (tick : ℕ) (sel : Selection) : World :=
  let w := { w with inTail := false }
  if w.retired ∨ w.finished then w
  else if w.nextStepIsFinal then w.stage tick sel
  else
    let newMapping := sel.parentIdx.map fun p => w.windows.getD p []
    { w.stage tick sel with
      windows := newMapping
      pendingOrphans := w.pendingOrphans ++
        [{ tick := tick, oldMapping := w.windows, newMapping := newMapping }] }

/-- The loop of `commit_pending`: what stays staged, and whether the search has ended. -/
def commitSteps (upToTick : ℕ) : List (ℕ × Bool) → List (ℕ × Bool) × Bool
  | [] => ([], false)
  | (tick, ends) :: steps =>
    if upToTick < tick then ((tick, ends) :: steps, false)
    else if ends then ([], true)
    else commitSteps upToTick steps

/-- `commit_pending` -/
def commitPending (upToTick : ℕ) : World × Bool :=
  if w.finished then ({ w with pendingSteps := [] }, false)
  else
    let (steps, ends) := commitSteps upToTick w.pendingSteps
    ({ w with pendingSteps := steps, finished := ends }, ends)

/-- The end of `commit_prefill` and `commit_decode`. -/
def commitTail (upToTick : ℕ) : Except Fault World :=
  let (w, ends) := w.commitPending upToTick
  if ends then w.finishGroup else .ok w

/-- `commit_prefill` -/
def commitPrefill (upToTick : ℕ) (toFinish : Bool) : Except Fault World :=
  if w.retired then .ok w
  else if toFinish then { w with finished := true }.finishGroup
  else do
    let w ← w.reclaimOrphans (some upToTick)
    w.commitTail upToTick

/-- `commit_decode`, for one group -/
def commitDecode (upToTick : ℕ) (toFinish : Bool) : Except Fault World :=
  if w.retired then .ok w
  else do
    let w ← w.reclaimOrphans (some upToTick)
    if toFinish then ({ w with finished := true } : World).finishGroup else w.commitTail upToTick

end World

/-! ## Steps -/

/-- The launch half of the prefill, the two parts of the launch half of a decode step, the deferred
halves, and the end outside of them. -/
inductive Op
  | prefill (tick : ℕ) (sel : Selection) (rows : List ℕ)
  | alloc (fresh : List ℕ)
  | select (tick : ℕ) (sel : Selection)
  | commitPrefill (tick : ℕ) (toFinish : Bool)
  | commitDecode (tick : ℕ) (toFinish : Bool)
  | retract

/-- What the pools give is new to the group, and the parents are `beamWidth` rows of the frontier:
with fewer survivors the rest is padded. -/
def World.step (w : World) : Op → Option (Except Fault World)
  | .prefill tick sel rows =>
    if w.finished ∨ w.numGenerated ≠ 0 ∨ ¬ rows.Nodup ∨ rows.length + 1 ≠ w.beamWidth then none
    else some (.ok (w.selectLeaderPrefill tick sel rows))
  | .alloc fresh =>
    if w.retired ∨ w.memberRows.isNone ∨ w.inTail ∨ fresh.length ≠ w.beamWidth ∨ ¬ fresh.Nodup ∨
        ∃ s ∈ fresh, s ∈ w.prompt ∨ s ∈ w.slots then none
    else some (.ok (w.allocForDecode fresh))
  | .select tick sel =>
    if ¬ w.inTail ∨ sel.parentIdx.length ≠ w.beamWidth ∨ ∃ p ∈ sel.parentIdx, w.beamWidth ≤ p then
      none
    else some (.ok (w.selectAndRelayDecode tick sel))
  | .commitPrefill tick toFinish => some (w.commitPrefill tick toFinish)
  | .commitDecode tick toFinish => some (w.commitDecode tick toFinish)
  | .retract => some w.retract

def World.next (w : World) (op : Op) : Option World := (w.step op).bind Except.toOption

end Sglang.Beam
