import Sglang.Lib.Runs

/-!
# The status of a room

The functions of `disaggregation/common/conn.py` that change the status of one room
(`request_status`), called by any threads, each of which moves by single accesses to the tables.
`update_status` reads the status and then writes it, and `conclude_transfer` looks for a recorded
failure and then at the status again; other threads may come between.  The reasons of failures, and
whom `conclude_transfer` tells, are left out.

`Allowed` names the accesses that must not fall so: a write over a failure, or into a room that was
cleared, by a thread that read the status before, and a clear between the two looks at a failed
room.  Without them a failed transfer stays failed until its room is cleared, a room that is not
there has to be opened, and nobody is told of a success unless the room was free of failures at some
moment of the call (`failed_stays_failed`); with them it is not so (`failed_room_revived`).
-/

namespace Sglang.Disagg
open Lib Function

/-- `KVPoll` -/
inductive Poll
  | failed
  | bootstrapping
  | waitingForInput
  | transferring
  | success
  deriving DecidableEq

def Poll.value : Poll → ℕ
  | .failed => 0
  | .bootstrapping => 1
  | .waitingForInput => 2
  | .transferring => 3
  | .success => 4

/-- What `update_status` writes when it has read `current`, if it writes. -/
def written (current : Option Poll) (status : Poll) : Option Poll :=
  match current with
  | none => if status = .bootstrapping ∨ status = .waitingForInput then some status else none
  | some current =>
    if status = .failed then some .failed
    else if current = .failed then none
    else some (if current.value ≤ status.value then status else current)

/-- `update_status` as one step, on the entry of the room in `request_status`. -/
def updateStatus (current : Option Poll) (status : Poll) : Option Poll :=
  (written current status).or current

/-- Where a thread is: outside, or before its next access. -/
inductive Place
  | idle
  /-- `update_status`, after which `conclude_transfer` sends the status -/
  | update (status : Poll) (sends : Bool)
  | write (current : Option Poll) (status : Poll) (sends : Bool)
  | send (status : Poll)
  | conclude (status : Poll)
  /-- `conclude_transfer` with `Success`, before it looks for a recorded failure -/
  | records
  /-- and before it looks at the status again -/
  | noRecord
  | setDefault
  /-- `apply_prefill_status` -/
  | prefill (status : Poll) (rank : ℕ)
  | track (rank : ℕ)
  | awaited
  | count (n : ℕ)
  /-- `record_failure`, then `update_status` -/
  | record
  | clear
  deriving DecidableEq

def Place.updated (status : Poll) (sends : Bool) : Place := if sends then .send status else .idle

/-- `conclude_transfer` has decided to send `Success`. -/
def Place.Succeeds (p : Place) : Prop :=
  p = .update .success true ∨ (∃ c, p = .write c .success true) ∨ p = .send .success

/-- The tables at the room, and the threads. -/
structure Tables (τ : Type) where
  status : Option Poll
  /-- there is an entry in `failure_records` -/
  failure : Bool
  /-- `prefill_response_tracker` -/
  tracker : List ℕ
  /-- `required_prefill_response_num_table` -/
  required : Option ℕ
  place : τ → Place
  /-- at a moment of the call the thread is in, the room was not failed and had no failure -/
  clean : τ → Bool

/-- The calls that concern the room. -/
inductive Call
  | update (status : Poll)
  | conclude (status : Poll)
  | prefill (status : Poll) (rank : ℕ)
  /-- `CommonKVSender.abort` -/
  | abort
  /-- `CommonKVSender.clear` -/
  | clear

def Call.entry : Call → Place
  | .update status => .update status false
  | .conclude status => .conclude status
  | .prefill status rank => .prefill status rank
  | .abort => .record
  | .clear => .clear

/-- A thread enters a call, or makes its next access. -/
inductive Move (τ : Type)
  | call (t : τ) (c : Call)
  | access (t : τ)

namespace Tables
variable {τ : Type} [DecidableEq τ]

def start : Tables τ := ⟨none, false, [], none, fun _ => .idle, fun _ => false⟩

def goto (s : Tables τ) (t : τ) (p : Place) : Tables τ := { s with place := update s.place t p }

/-- The next access of a thread. -/
def access (s : Tables τ) (t : τ) : Option (Tables τ) :=
  match s.place t with
  | .idle => none
  | .update status sends =>
    if written s.status status = none then some (s.goto t (.updated status sends))
    else some (s.goto t (.write s.status status sends))
  | .write current status sends =>
    some { s.goto t (.updated status sends) with status := written current status }
  | .send _ => some (s.goto t .idle)
  | .conclude status =>
    if s.status = none then some (s.goto t .idle)
    else if status = .success then some (s.goto t .records)
    else if status = .failed then some (s.goto t .setDefault)
    else some (s.goto t (.update status true))
  | .records => some (s.goto t (if s.failure then .setDefault else .noRecord))
  | .noRecord =>
    some (s.goto t (if s.status = some .failed then .setDefault else .update .success true))
  | .setDefault => some { s.goto t (.update .failed true) with failure := true }
  | .prefill status rank =>
    if s.status = none then some (s.goto t .idle)
    else if status = .success then some (s.goto t (.track rank))
    else some (s.goto t (if status = .failed then .record else .idle))
  | .track rank => some { s.goto t .awaited with tracker := s.tracker.insert rank }
  | .awaited =>
    match s.required with
    | none => some (s.goto t .idle)
    | some n => some (s.goto t (.count n))
  | .count n => some (s.goto t (if s.tracker.length < n then .idle else .update .success false))
  | .record => some { s.goto t (.update .failed false) with failure := true }
  | .clear => some { s.goto t .idle with status := none }

def isClean (s : Tables τ) : Bool := s.status ≠ some .failed ∧ s.failure = false

def next (s : Tables τ) : Move τ → Option (Tables τ)
  | .call t c =>
    if s.place t = .idle then some { s.goto t c.entry with clean := update s.clean t s.isClean }
    else none
  | .access t => (s.access t).map fun s' => { s' with clean := fun t => s.clean t || s'.isClean }

/-- Nothing but `Failed` is written over a failure, a room that is not there is written by a thread
that read that it was not, and a failed room is not cleared while `conclude_transfer` is between its
two looks. -/
def Allowed (s : Tables τ) : Move τ → Prop
  | .call _ _ => True
  | .access t =>
    match s.place t with
    | .write current status _ => (s.status = some .failed → written current status = some .failed) ∧
        (s.status = none → current = none)
    | .clear => s.status = some .failed → ∀ t', s.place t' ≠ .noRecord
    | _ => True

/-! ## Failed rooms -/

structure Sound (s : Tables τ) : Prop where
  writes : ∀ t c p sends, s.place t = .write c p sends → written c p ≠ none
  looked : ∀ t, s.place t = .noRecord → s.status = some .failed ∨ s.clean t = true
  success : ∀ t, (s.place t).Succeeds → s.clean t = true

variable {s s' : Tables τ} {e : Move τ}

lemma clean_next {t : τ} (hs : s.next e = some s') (hne : s.place t ≠ .idle)
    (hc : s.clean t = true) : s'.clean t = true := by
  cases e with
  | call u c =>
    simp only [Tables.next] at hs
    split_ifs at hs with hidle
    cases hs
    have hu : t ≠ u := fun heq => hne (heq ▸ hidle)
    exact (update_of_ne hu _ _).trans hc
  | access u =>
    obtain ⟨s1, -, rfl⟩ := Option.map_eq_some_iff.1 hs
    simp [hc]

/-- What a move does to the place of its thread and to the status. -/
lemma next_cases (hs : s.next e = some s') : ∃ t p, s'.place = update s.place t p ∧
    (∀ c q sends, p = .write c q sends → written c q ≠ none) ∧
    (p = .noRecord → s'.status = some .failed ∨ s'.clean t = true) ∧
    (p.Succeeds → s.place t = .noRecord ∧ s.status ≠ some .failed ∨ (s.place t).Succeeds) ∧
    (s'.status = s.status ∨ e = .access t ∧ (s.place t = .clear ∧ s'.status = none ∨
      ∃ c q sends, s.place t = .write c q sends ∧ s'.status = written c q)) := by
  cases e with
  | call t c =>
    simp only [Tables.next] at hs
    split_ifs at hs
    cases hs
    refine ⟨t, c.entry, rfl, ?_⟩
    cases c <;> simp [Call.entry, Place.Succeeds, goto]
  | access t =>
    obtain ⟨s1, hs1, rfl⟩ := Option.map_eq_some_iff.1 hs
    refine ⟨t, ?_⟩
    -- One goal for each place and branch; where it leads and what it writes is read off.
    unfold access at hs1
    split at hs1
    · cases hs1
    all_goals
      try split at hs1
      all_goals grind [goto, isClean, Place.updated, Place.Succeeds]

/-- A failed room stays so until it is cleared, and one that is not there has to be opened. -/
structure Kept (s : Tables τ) (e : Move τ) (s' : Tables τ) : Prop where
  failed : s.status = some .failed → s'.status = some .failed ∨
    s'.status = none ∧ ∃ t, e = .access t ∧ s.place t = .clear
  opened : s.status = none → s'.status = none ∨ ∃ t status sends, e = .access t ∧
    s.place t = .write none status sends ∧ s'.status = some status ∧
    (status = .bootstrapping ∨ status = .waitingForInput)

lemma Sound.kept (h : s.Sound) (hok : s.Allowed e) (hs : s.next e = some s') : Kept s e s' := by
  obtain ⟨t, p, -, -, -, -, hst | ⟨rfl, ⟨hclear, hst⟩ | ⟨c, q, sends, hw, hst⟩⟩⟩ := next_cases hs
  · exact ⟨fun hf => .inl (hst.trans hf), fun hnone => .inl (hst.trans hnone)⟩
  · exact ⟨fun _ => .inr ⟨hst, t, rfl, hclear⟩, fun _ => .inl hst⟩
  · have hne := h.writes t c q sends hw
    simp only [Allowed, hw] at hok
    refine ⟨fun hf => .inl (hst.trans (hok.1 hf)), fun hnone => .inr ?_⟩
    obtain rfl := hok.2 hnone
    simp only [written] at hst hne
    split_ifs at hst hne with hopen
    · exact ⟨t, q, sends, rfl, hw, hst, hopen⟩
    · exact absurd rfl hne

lemma Sound.next (h : s.Sound) (hok : s.Allowed e) (hs : s.next e = some s') : s'.Sound := by
  obtain ⟨t, p, hp, hw, hn, hsucc, -⟩ := next_cases hs
  have hplace : ∀ t', s'.place t' = if t' = t then p else s.place t' := fun t' => by
    rw [hp, update_apply]
  refine ⟨fun t' c q sends ht => ?_, fun t' ht => ?_, fun t' ht => ?_⟩
  · rw [hplace] at ht
    split_ifs at ht
    · exact hw c q sends ht
    · exact h.writes t' c q sends ht
  · rw [hplace] at ht
    split_ifs at ht with heq
    · exact heq ▸ hn ht
    · rcases h.looked t' ht with hf | hc
      · refine .inl (((h.kept hok hs).failed hf).resolve_right ?_)
        rintro ⟨-, u, rfl, hclear⟩
        simp only [Allowed, hclear] at hok
        exact hok hf t' ht
      · exact .inr (clean_next hs (by simp [ht]) hc)
  · have hold : s.clean t' = true ∧ s.place t' ≠ .idle := by
      grind [Place.Succeeds, h.looked, h.success]
    exact clean_next hs hold.2 hold.1

/-- **A failed transfer stays failed** if all moves of the run are allowed. -/
theorem failed_stays_failed {s₀ : Tables τ} (hidle : ∀ t, s₀.place t = .idle)
    (hrun : Run next Allowed s₀ s) :
    (∀ e s', s.Allowed e → s.next e = some s' → Kept s e s') ∧
      ∀ t, s.place t = .send .success → s.clean t = true := by
  have h : s.Sound := hrun.invariant
    ⟨by simp [hidle], by simp [hidle], by simp [hidle, Place.Succeeds]⟩
    fun _ _ _ h hok hs => h.next hok hs
  exact ⟨fun e s' hok hs => h.kept hok hs, fun t ht => h.success t (.inr (.inr ht))⟩

/-- Another thread fails the room when `conclude_transfer` has looked: it stays failed, and the
success was decided before. -/
theorem failed_stays_failed_after_looks :
    ∃ s : Tables ℕ, Run next Allowed start s ∧ s.status = some .failed ∧
      s.place 0 = .send .success ∧ s.clean 0 = true ∧
      ∀ e s', s.Allowed e → s.next e = some s' → Kept s e s' := by
  refine Run.exists_of [.call 0 (.update .bootstrapping), .access 0, .access 0,
      .call 0 (.conclude .success), .access 0, .access 0, .access 0, .call 1 (.prefill .failed 0),
      .access 1, .access 1, .access 1, .access 1, .access 0]
    (p := fun s => s.status = some .failed ∧ s.place 0 = .send .success) ?_ (by decide)
    fun s hrun hs => ?_
  · simp [okList, Allowed, next, access, start, goto, written, Call.entry, Place.updated]
  · obtain ⟨hkept, hclean⟩ := failed_stays_failed (fun _ => rfl) hrun
    exact ⟨hs.1, hs.2, hclean 0 hs.2, hkept⟩

/-- An update that read the status before the room failed writes over the failure, and a room that
is failed until it is cleared between the two looks is reported as a success. -/
theorem failed_room_revived :
    (∃ s : Tables ℕ, Run next (fun _ _ => True) start s ∧ s.status = some .failed ∧
      (s.next (.access 0)).map (·.status) = some (some .transferring)) ∧
    ∃ s : Tables ℕ, Run next (fun _ _ => True) start s ∧ s.place 0 = .send .success ∧
      s.clean 0 = false := by
  constructor
  · exact Run.exists_of [.call 0 (.update .bootstrapping), .access 0, .access 0,
      .call 0 (.update .transferring), .access 0, .call 1 (.update .failed), .access 1, .access 1]
      (by decide) (by decide) fun _ _ => id
  · exact Run.exists_of [.call 1 (.update .bootstrapping), .access 1, .access 1,
      .call 1 (.update .failed), .access 1, .access 1, .call 0 (.conclude .success), .access 0,
      .access 0, .call 1 (.prefill .failed 0), .access 1, .access 1, .call 2 .clear, .access 2,
      .access 0, .access 0]
      (by decide) (by decide) fun _ _ => id

end Tables
end Sglang.Disagg
