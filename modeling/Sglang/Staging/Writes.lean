import Sglang.Lib.Runs

/-!
# The staging writes of a prefill rank

One room at the transfer worker of a prefill rank (`transfer_worker` and `_do_staging_transfer` of
`disaggregation/mooncake/conn.py`, `check_ready` of `disaggregation/common/staging_handler.py`),
with the slots its decode targets keep for the chunks.  The worker takes a chunk off its queue and
serves the targets one after the other; a target that is not ready makes it put the whole chunk
back at the end of the queue, also if earlier targets have got it.

A target frees the slot of a chunk once the chunk was scattered, and frees all slots when it tears
the room down.  `handle_chunk_arrived` counts CHUNK_READY messages and does not look who sent them,
so with several prefill ranks in a pipeline a repetition of one of them can free the slot before
another one has written.  That a slot is freed after this rank has reported its chunk is therefore
asked of the run (`State.Allowed`); it holds if the repeated writes that `State.Allowed` excludes
are excluded at every prefill rank of the room.

* `State.Tracked` says what the worker still has to write: a chunk is in one place, and what was
  written is behind the worker.
* `staged_chunk_written_once`: in a run whose steps are allowed a chunk is written to each target at
  most once, into a live slot.
* `staged_chunk_written_twice`: a chunk that is put back after a write is written again, into a slot
  that is no longer live.

Chunks of other rooms in the queue make no difference here, and a target has one allocation for a
chunk.
-/

namespace Sglang.Staging.Writes

open Lib

/-- The slot of a chunk on a decode target. -/
inductive Slot
  | unassigned
  | live
  | released
  deriving DecidableEq

/-- `staging.offsets` of a target, by chunk: what STAGING_RSP told the prefill rank. -/
inductive Offset
  | pending
  | oversized
  | known
  deriving DecidableEq

/-- What becomes of a write: done, it does not fit the ring and is not made, or it fails. -/
inductive Ret
  | ok
  | misfit
  | error
  deriving DecidableEq

structure State where
  /-- the room has failed or was cleared -/
  failed : Bool
  queue : List ℕ
  /-- the chunk the worker is at, and the first target it has not served -/
  worker : Option (ℕ × ℕ)
  offset : ℕ → ℕ → Offset
  slot : ℕ → ℕ → Slot
  /-- the chunks that were enqueued -/
  sent : List ℕ
  /-- the writes and the CHUNK_READY messages, by chunk and target -/
  writes : List (ℕ × ℕ)
  readies : List (ℕ × ℕ)
  /-- the writes to a slot that was not live -/
  late : List (ℕ × ℕ)

def State.start : State :=
  ⟨false, [], none, fun _ _ => .pending, fun _ _ => .unassigned, [], [], [], []⟩

inductive Op
  | enqueue (c : ℕ)
  | take
  /-- the next target; the watermark of its slot has been passed or not -/
  | serve (watermark : Bool) (ret : Ret)
  /-- the session of the target is dead -/
  | drop
  | fail
  | assign (t c : ℕ)
  | respond (t c : ℕ) (oversized : Bool)
  | release (t c : ℕ)
  | teardown (t : ℕ)

/-- `staging_strategy.transfer` and `_send_chunk_ready` -/
def State.transfer (s : State) (c t : ℕ) : Ret → State
  | .misfit => { s with failed := true, worker := none }
  | .error => { s with
      failed := true
      worker := none
      writes := (c, t) :: s.writes
      late := if s.slot t c = .live then s.late else (c, t) :: s.late }
  | .ok => { s with
      worker := some (c, t + 1)
      writes := (c, t) :: s.writes
      readies := (c, t) :: s.readies
      late := if s.slot t c = .live then s.late else (c, t) :: s.late }

section

-- how many targets the room has, and which of them are dummies
variable (n : ℕ) (dummy : ℕ → Bool)

def State.serve (s : State) (watermark : Bool) (ret : Ret) : Option State :=
  match s.worker with
  | none => none
  | some (c, t) =>
    if n ≤ t then some { s with worker := none }
    else if dummy t then some { s with worker := some (c, t + 1) }
    else match s.offset t c, watermark with
      | .oversized, _ => some { s with failed := true, worker := none }
      | .known, true => some (s.transfer c t ret)
      | _, _ => some { s with queue := s.queue ++ [c], worker := none }

def State.next (s : State) : Op → Option State
  | .enqueue c =>
    if c ∈ s.sent then none else some { s with queue := s.queue ++ [c], sent := c :: s.sent }
  | .take =>
    match s.worker, s.queue with
    | none, c :: queue =>
      some { s with queue := queue, worker := if s.failed then none else some (c, 0) }
    | _, _ => none
  | .serve watermark ret => s.serve n dummy watermark ret
  | .drop => if s.worker = none then none else some { s with failed := true, worker := none }
  | .fail => some { s with failed := true }
  | .assign t c =>
    if s.slot t c = .unassigned then
      some { s with slot := fun t' c' => if t' = t ∧ c' = c then .live else s.slot t' c' }
    else none
  | .respond t c oversized =>
    if oversized = false ∧ s.slot t c = .unassigned then none
    else some { s with offset := fun t' c' =>
      if t' = t ∧ c' = c then (if oversized then .oversized else .known) else s.offset t' c' }
  | .release t c =>
    if s.slot t c = .live then
      some { s with slot := fun t' c' => if t' = t ∧ c' = c then .released else s.slot t' c' }
    else none
  | .teardown t =>
    some { s with slot := fun t' c' =>
      if t' = t ∧ s.slot t' c' = .live then .released else s.slot t' c' }

/-- A chunk is put back only if it has not been written to any target; a target frees a slot when
this rank has reported the chunk, and tears the room down when the chunks it has slots for were
written there, or when the prefill rank has given up the room. -/
def State.Allowed (s : State) : Op → Prop
  | .serve watermark _ => ∀ c t, s.worker = some (c, t) → t < n → dummy t = false →
      s.offset t c = .pending ∨ watermark = false → ∀ t', (c, t') ∉ s.writes
  | .release t c => (c, t) ∈ s.readies
  | .teardown t => (∀ c, s.slot t c = .live → (c, t) ∈ s.writes) ∨
      (s.failed = true ∧ s.worker = none)
  | _ => True

end

/-! ## What the worker still has to write -/

structure State.Tracked (s : State) : Prop where
  queue : s.queue.Nodup
  sent : ∀ c, c ∈ s.queue ∨ (∃ t, s.worker = some (c, t)) → c ∈ s.sent
  held : ∀ c t, s.worker = some (c, t) → c ∉ s.queue
  written : ∀ c t, (c, t) ∈ s.writes →
    c ∈ s.sent ∧ c ∉ s.queue ∧ ∀ t', s.worker = some (c, t') → t < t'
  writes : s.writes.Nodup
  ready : ∀ p ∈ s.readies, p ∈ s.writes
  readies : s.readies.Nodup
  known : ∀ t c, s.offset t c = .known → s.slot t c ≠ .unassigned
  released : ∀ t c, s.slot t c = .released → (c, t) ∈ s.writes ∨ (s.failed = true ∧ s.worker = none)
  late : s.late = []

lemma State.Tracked.start : State.start.Tracked := by
  constructor <;> simp [State.start]

variable {n : ℕ} {dummy : ℕ → Bool} {s s' : State} {op : Op}

/-- The worker gives up the room. -/
lemma State.Tracked.giveUp (h : s.Tracked) :
    { s with failed := true, worker := none }.Tracked :=
  { h with
    sent := fun c hc => h.sent c (hc.imp id fun ⟨_, hw⟩ => by cases hw)
    held := nofun
    written := fun c t hw => ⟨(h.written c t hw).1, (h.written c t hw).2.1, nofun⟩
    released := fun _ _ _ => .inr ⟨rfl, rfl⟩ }

lemma State.Tracked.transfer {c t : ℕ} (h : s.Tracked) (hw : s.worker = some (c, t))
    (hk : s.offset t c = .known) (ret : Ret) : (s.transfer c t ret).Tracked := by
  have hnew : (c, t) ∉ s.writes := by
    intro hmem
    have := (h.written c t hmem).2.2 t hw
    omega
  have hlive : s.slot t c = .live := by
    cases hs : s.slot t c with
    | live => rfl
    | unassigned => exact absurd hs (h.known t c hk)
    | released => grind [h.released t c hs]
  cases ret with
  | misfit => exact h.giveUp
  | error =>
    cases h
    simp only [State.transfer, if_pos hlive]
    constructor <;> grind
  | ok =>
    cases h
    simp only [State.transfer, if_pos hlive]
    constructor <;> grind

lemma State.Tracked.serve {watermark : Bool} {ret : Ret} (h : s.Tracked)
    (hok : s.Allowed n dummy (.serve watermark ret))
    (hs : s.serve n dummy watermark ret = some s') : s'.Tracked := by
  unfold State.serve at hs
  split at hs
  · cases hs
  rename_i c t hw
  split at hs
  · cases hs
    cases h
    constructor <;> grind
  · split at hs
    · cases hs
      cases h
      constructor <;> grind
    · split at hs
      · cases hs
        exact h.giveUp
      · cases hs
        exact h.transfer hw (by assumption) ret
      · have hnone : ∀ t', (c, t') ∉ s.writes := by
          refine hok c t hw (by omega) (by simpa using ‹¬dummy t = true›) ?_
          cases ho : s.offset t c <;> simp_all
        cases hs
        cases h
        constructor <;> grind

lemma State.Tracked.take (h : s.Tracked) (hs : s.next n dummy .take = some s') : s'.Tracked := by
  simp only [State.next] at hs
  split at hs
  · cases hs
    cases h
    constructor <;> grind
  · cases hs

/-- The slots may change if no known one gets lost and only written ones are released. -/
lemma State.Tracked.slots {slot : ℕ → ℕ → Slot} (h : s.Tracked)
    (hknown : ∀ t c, s.slot t c ≠ .unassigned → slot t c ≠ .unassigned)
    (hreleased : ∀ t c, slot t c = .released → s.slot t c = .released ∨ (c, t) ∈ s.writes ∨
      (s.failed = true ∧ s.worker = none)) : { s with slot := slot }.Tracked :=
  { h with
    known := fun t c hk => hknown t c (h.known t c hk)
    released := fun t c hr => (hreleased t c hr).elim (h.released t c) id }

lemma State.Tracked.next (h : s.Tracked) (hok : s.Allowed n dummy op)
    (hs : s.next n dummy op = some s') : s'.Tracked := by
  cases op with
  | enqueue c =>
    obtain ⟨hnew, hs⟩ := Option.ite_none_left_eq_some.1 hs
    cases hs
    cases h
    constructor <;> grind
  | take => exact h.take hs
  | serve watermark ret => exact h.serve hok hs
  | drop =>
    obtain ⟨-, hs⟩ := Option.ite_none_left_eq_some.1 hs
    cases hs
    exact h.giveUp
  | fail =>
    cases hs
    exact { h with released := fun t c hr => (h.released t c hr).imp id fun hf => ⟨rfl, hf.2⟩ }
  | assign t c =>
    obtain ⟨-, hs⟩ := Option.ite_none_right_eq_some.1 hs
    cases hs
    exact h.slots (by grind) (by grind)
  | respond t c oversized =>
    obtain ⟨hslot, hs⟩ := Option.ite_none_left_eq_some.1 hs
    cases hs
    -- a known offset belongs to a slot that was assigned
    have hknown := h.known
    refine { h with known := fun t' c' hk => ?_ }
    grind
  | release t c =>
    obtain ⟨-, hs⟩ := Option.ite_none_right_eq_some.1 hs
    cases hs
    have hwritten : (c, t) ∈ s.writes := h.ready _ hok
    exact h.slots (by grind) (by grind)
  | teardown t =>
    cases hs
    -- the slots that are released were written, or nothing is written any more
    have hlive : ∀ c, s.slot t c = .live → (c, t) ∈ s.writes ∨
        (s.failed = true ∧ s.worker = none) := fun c hc => hok.imp (· c hc) id
    exact h.slots (by grind) (by grind)

/-- **A staged chunk is written to each decode target at most once, into a live slot** if all steps
of the run are allowed. -/
theorem staged_chunk_written_once
    (hrun : Run (State.next n dummy) (State.Allowed n dummy) .start s) :
    s.writes.Nodup ∧ s.readies.Nodup ∧ s.late = [] := by
  have h : s.Tracked := hrun.invariant .start fun _ _ _ h hok hs => h.next hok hs
  exact ⟨h.writes, h.readies, h.late⟩

/-- A chunk that has to wait for its slot on the first of two targets. -/
theorem staged_chunk_written_once_after_wait :
    ∃ s, Run (State.next 2 fun _ => false) (State.Allowed 2 fun _ => false) .start s ∧
      s.writes = [(0, 1), (0, 0)] ∧ s.writes.Nodup ∧ s.readies.Nodup ∧ s.late = [] := by
  refine Run.exists_of [.enqueue 0, .assign 1 0, .respond 1 0 false, .take, .serve true .ok,
    .assign 0 0, .respond 0 0 false, .take, .serve true .ok, .release 0 0, .serve true .ok,
    .serve true .ok] (p := fun s => s.writes = [(0, 1), (0, 0)]) ?_ (by decide)
    fun s hrun hs => ⟨hs, staged_chunk_written_once hrun⟩
  simp [okList, State.Allowed, State.next, State.start, State.serve, State.transfer]

/-- The second target is not ready: the chunk, put back as a whole, is written to the first target
once more, after the slot there was scattered and freed. -/
theorem staged_chunk_written_twice :
    ∃ s, Run (State.next 2 fun _ => false) (fun _ _ => True) .start s ∧
      ¬s.writes.Nodup ∧ ¬s.readies.Nodup ∧ s.late = [(0, 0)] := by
  exact Run.exists_of [.enqueue 0, .assign 0 0, .respond 0 0 false, .take, .serve true .ok,
    .serve true .ok, .release 0 0, .take, .serve true .ok] (by decide) (by decide) fun _ _ => id

end Sglang.Staging.Writes
