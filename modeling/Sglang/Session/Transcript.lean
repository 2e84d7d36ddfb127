import Sglang.Session.Streaming

/-!
# A session replays its history

Turns of a streaming session, one after the other.  A turn finishes, is aborted before it is
processed or is aborted while it runs; only turns that finish count.  `create_req` gives a new turn
the transcript of the finished ones followed by its own input, although the turns share their arrays
and an aborted turn leaves tokens in them.

The invariant (`Inv`) says what the arrays hold.  The arrays of the last finished request start with
what they held when it finished, whatever a later turn has added; the recorded lengths are those of
that part.  While a turn runs, its origin is its prompt, and its fill array is either still short or
the prompt with some of its output.
-/

namespace Sglang.Session
open Lib List Buffers Nat

/-! ## Turns -/

/-- A finished turn: its input as it was given, and its output through the stop. -/
structure Turn where
  input : List ℤ
  output : List ℤ

/-- What the finished turns add up to. -/
def transcript (bos : Option ℤ) : List Turn → List ℤ
  | [] => []
  | t :: ts => t.input ++ t.output ++ ts.flatMap fun t => stripBos bos t.input ++ t.output

/-- The input of a turn as it is appended. -/
def appended (bos : Option ℤ) (done : List Turn) (input : List ℤ) : List ℤ :=
  if done = [] then input else stripBos bos input

lemma transcript_concat (bos : Option ℤ) (done : List Turn) (t : Turn) :
    transcript bos (done ++ [t]) =
      transcript bos done ++ appended bos done t.input ++ t.output := by
  cases done with
  | nil => simp [transcript, appended]
  | cons t' ts => simp [transcript, appended, flatMap_append]

/-- A session, the request of the turn that runs with the input it was given, and the log of the
turns that finished. -/
structure Machine where
  session : State
  live : Option (Req × List ℤ)
  done : List Turn

def Machine.start : Machine where
  session := .start
  live := none
  done := []

inductive Event
  /-- a turn starts -/
  | create (input : List ℤ) (maxNewTokens : ℕ)
  /-- `set_finish_with_abort` -/
  | preAbort
  /-- `init_next_round_input` -/
  | refresh
  /-- tokens join the output -/
  | accept (tokens : List ℤ)
  /-- the checks look for a stop; if there is one, the turn finishes -/
  | check (stop : Option ℕ) (grammarTerminated : Bool)
  /-- the request leaves as an aborted one -/
  | abort

/-- A turn starts when no other runs, and finishes only if it is not aborted. -/
def Machine.step (bos : Option ℤ) (m : Machine) : Event → Option Machine
  | .create input maxNewTokens =>
    match m.live with
    | some _ => none
    | none =>
      let c := m.session.createReq bos .append input maxNewTokens
      some { m with session := c.state, live := some (c.req, input) }
  | .preAbort =>
    m.live.map fun (r, input) =>
      let (a, r) := setFinishWithAbort m.session.arrays r
      { m with session := { m.session with arrays := a }, live := some (r, input) }
  | .refresh =>
    m.live.map fun (r, input) =>
      let (a, r) := refreshFillIds m.session.arrays r
      { m with session := { m.session with arrays := a }, live := some (r, input) }
  | .accept tokens =>
    m.live.map fun (r, input) =>
      { m with live := some ({ r with outputIds := r.outputIds ++ tokens }, input) }
  | .check stop terminated =>
    m.live.bind fun (r, input) =>
      if r.toFinish then none
      else
        match r.finishedLen stop terminated with
        | none => some m
        | some n =>
          some
            { session := m.session.finishTurn r n
              live := none
              done := m.done ++ [{ input := input, output := r.outputIds.take n }] }
  | .abort =>
    m.live.map fun _ => { m with session := m.session.abortReq, live := none }

/-! ## The invariant -/

/-- The fill array of a request with the given prompt and output. -/
def FillOk (prompt output fill : List ℤ) : Prop :=
  fill.length < prompt.length ∨ ∃ k ≤ output.length, fill = prompt ++ output.take k

/-- More output does not change what the fill array already holds. -/
lemma FillOk.append {prompt output fill : List ℤ} (h : FillOk prompt output fill)
    (tokens : List ℤ) : FillOk prompt (output ++ tokens) fill := by
  refine h.imp id ?_
  rintro ⟨k, hk, rfl⟩
  refine ⟨k, hk.trans ?_, ?_⟩
  · simp
  · rw [take_append_of_le_length hk]

/-- The arrays of the last finished request, whose prompt was `prompt` and whose output before the
cut was `full`. -/
structure LastOk (a : Arrays) (last : Req) (c : Committed) (prompt full : List ℤ) : Prop where
  unpadded : last.originInputIdsUnpadded = last.originInputIds
  origin_lt : last.originInputIds < a.next
  fill_lt : last.fullUntruncatedFillIds < a.next
  fill_ne : last.fullUntruncatedFillIds ≠ last.originInputIds
  output : last.outputIds <+: full
  output_le : last.outputIds.length ≤ last.maxNewTokens
  origin : prompt <+: a.read last.originInputIds
  origin_len : c.origin = prompt.length
  fill : ∃ fill, fill <+: a.read last.fullUntruncatedFillIds ∧ c.fill = fill.length ∧
    FillOk prompt full fill

section
variable {a : Arrays} {last : Req} {c : Committed} {prompt full : List ℤ}

lemma LastOk.alloc (h : LastOk a last c prompt full) (l : List ℤ) :
    LastOk (a.alloc l) last c prompt full := by
  obtain ⟨fill, hfill, hlen, hok⟩ := h.fill
  exact
    { h with
      origin_lt := h.origin_lt.trans (lt_succ_self _)
      fill_lt := h.fill_lt.trans (lt_succ_self _)
      origin := isPrefix_alloc h.origin_lt h.origin
      fill := ⟨fill, isPrefix_alloc h.fill_lt hfill, hlen, hok⟩ }

/-- Whatever is appended to an array later, its recorded beginning stays. -/
lemma LastOk.extend (h : LastOk a last c prompt full) (r : ℕ) (l : List ℤ) :
    LastOk (a.extend r l) last c prompt full := by
  obtain ⟨fill, hfill, hlen, hok⟩ := h.fill
  exact
    { h with
      origin_lt := h.origin_lt
      fill_lt := h.fill_lt
      origin := isPrefix_extend h.origin
      fill := ⟨fill, isPrefix_extend hfill, hlen, hok⟩ }

lemma LastOk.outTail_eq (h : LastOk a last c prompt full) : last.outTail = last.outputIds :=
  take_of_length_le h.output_le

/-- Both arrays cut back to what they held when the request finished. -/
def cutBack (a : Arrays) (c : Committed) (last : Req) : Arrays :=
  (a.truncate last.originInputIds c.origin).truncate last.fullUntruncatedFillIds c.fill

/-- Cut back to the recorded lengths, the arrays are what they were when the request finished. -/
lemma LastOk.cutBack (h : LastOk a last c prompt full) :
    LastOk (cutBack a c last) last c prompt full ∧
      (cutBack a c last).read last.originInputIds = prompt ∧
      FillOk prompt full ((cutBack a c last).read last.fullUntruncatedFillIds) := by
  obtain ⟨fill, hfill, hlen, hok⟩ := h.fill
  have horigin : (Session.cutBack a c last).read last.originInputIds = prompt := by
    rw [Session.cutBack, read_truncate_of_ne h.fill_ne.symm, h.origin_len,
      read_truncate_of_isPrefix h.origin]
  have hfill' : (Session.cutBack a c last).read last.fullUntruncatedFillIds = fill := by
    rw [Session.cutBack, hlen]
    refine read_truncate_of_isPrefix ?_
    rwa [read_truncate_of_ne h.fill_ne]
  refine ⟨{ h with origin := ?_, fill := ⟨fill, ?_, hlen, hok⟩ }, horigin, hfill' ▸ hok⟩
  · rw [horigin]
  · rw [hfill']

/-- What a fill array of the right length still lacks is the rest of the output. -/
lemma FillOk.append_drop {prompt full output fill : List ℤ} (h : FillOk prompt full fill)
    (hout : output <+: full) (hle : prompt.length ≤ fill.length)
    (hbaked : fill.length - prompt.length ≤ output.length) :
    fill ++ output.drop (fill.length - prompt.length) = prompt ++ output := by
  obtain ⟨k, hk, rfl⟩ := h.resolve_left (not_lt.2 hle)
  have hbaked' : (prompt ++ full.take k).length - prompt.length = k := by
    rw [length_append, length_take, min_eq_left hk, Nat.add_sub_cancel_left]
  rw [hbaked'] at hbaked ⊢
  obtain ⟨rest, rfl⟩ := hout
  rw [take_append_of_le_length hbaked, append_assoc, take_append_drop]

/-- **`_share_token_arrays`**: the origin is the prompt and the output of the last turn followed by
the new input, and so is the fill array if it is carried. -/
theorem LastOk.share (h : LastOk a last c prompt full) (new : List ℤ) :
    ∃ a' carry, shareTokenArrays a c last new =
        (a', last.originInputIds, last.originInputIds, carry) ∧
      a'.next = a.next ∧ LastOk a' last c prompt full ∧
      a'.read last.originInputIds = prompt ++ last.outputIds ++ new ∧
      (carry = none ∨ carry = some last.fullUntruncatedFillIds ∧
        a'.read last.fullUntruncatedFillIds = prompt ++ last.outputIds ++ new) := by
  obtain ⟨hcut, horigin, hok⟩ := h.cutBack
  have hfold : (a.truncate last.originInputIds c.origin).truncate last.fullUntruncatedFillIds c.fill =
      Session.cutBack a c last := rfl
  have hnext : (Session.cutBack a c last).next = a.next := rfl
  rw [shareTokenArrays]
  simp only [h.unpadded, if_true, or_self, if_neg h.fill_ne, h.outTail_eq, hfold, horigin]
  generalize Session.cutBack a c last = a0 at hcut horigin hok hnext
  split
  next hbaked =>
    -- the fill array catches up with the output first
    have hle : prompt.length ≤ (a0.read last.fullUntruncatedFillIds).length := by omega
    have hnat : ((a0.read last.fullUntruncatedFillIds).length - prompt.length : ℤ).toNat =
        (a0.read last.fullUntruncatedFillIds).length - prompt.length := by omega
    have hcatch := hok.append_drop h.output hle (by omega)
    refine ⟨_, _, rfl, hnext, ?_, ?_, .inr ⟨rfl, ?_⟩⟩
    · exact (((hcut.extend _ _).extend _ _).extend _ _).extend _ _
    · simp only [read_extend, read_extend_of_ne h.fill_ne.symm, horigin]
    · simp only [read_extend, read_extend_of_ne h.fill_ne, hnat, hcatch]
  next =>
    refine ⟨_, _, rfl, hnext, (hcut.extend _ _).extend _ _, ?_, .inl rfl⟩
    simp only [read_extend, horigin]

end

/-- A turn that runs and is not aborted. -/
structure LiveOk (a : Arrays) (r : Req) (prompt : List ℤ) : Prop where
  ne_nil : prompt ≠ []
  unpadded : r.originInputIdsUnpadded = r.originInputIds
  origin_lt : r.originInputIds < a.next
  fill_ne : r.fullUntruncatedFillIds ≠ r.originInputIds
  origin : a.read r.originInputIds = prompt
  fill : FillOk prompt r.outputIds (a.read r.fullUntruncatedFillIds)

/-- The prompt of a turn. -/
def Machine.prompt (bos : Option ℤ) (m : Machine) (input : List ℤ) : List ℤ :=
  transcript bos m.done ++ appended bos m.done input

/-- What the session has of the turns that finished. -/
inductive HistoryOk (bos : Option ℤ) (s : State) (done : List Turn) : Prop
  | none (hlast : s.lastReq = none) (hdone : done = []) : HistoryOk bos s done
  | some {last : Req} {c : Committed} {prompt full : List ℤ} (hlast : s.lastReq = some last)
      (hc : s.committed = some c) (hdone : done ≠ []) (hok : LastOk s.arrays last c prompt full)
      (htranscript : transcript bos done = prompt ++ last.outputIds) : HistoryOk bos s done

structure Inv (bos : Option ℤ) (m : Machine) : Prop where
  idle : m.live = none → m.session.inflight = false
  history : HistoryOk bos m.session m.done
  fill_lt : ∀ r input, m.live = some (r, input) → r.fullUntruncatedFillIds < m.session.arrays.next
  live : ∀ r input, m.live = some (r, input) → r.toFinish = false →
    LiveOk m.session.arrays r (m.prompt bos input)

variable {bos : Option ℤ} {m m' : Machine} {s : State} {done : List Turn}

section
variable (h : HistoryOk bos s done)

include h

lemma HistoryOk.alloc (l : List ℤ) :
    HistoryOk bos { s with arrays := s.arrays.alloc l } done := by
  cases h with
  | none hlast hdone => exact .none hlast hdone
  | some hlast hc hdone hok htr => exact .some hlast hc hdone (hok.alloc l) htr

lemma HistoryOk.extend (r : ℕ) (l : List ℤ) :
    HistoryOk bos { s with arrays := s.arrays.extend r l } done := by
  cases h with
  | none hlast hdone => exact .none hlast hdone
  | some hlast hc hdone hok htr => exact .some hlast hc hdone (hok.extend r l) htr

/-- Only the arrays, the last request and the recorded lengths matter. -/
lemma HistoryOk.inflight (b : Bool) : HistoryOk bos { s with inflight := b } done := by
  cases h with
  | none hlast hdone => exact .none hlast hdone
  | some hlast hc hdone hok htr => exact .some hlast hc hdone hok htr

/-! ## Creation -/

/-- The arrays of a new turn: its origin is its prompt, and so is a fill array that is carried. -/
lemma HistoryOk.newArrays (input : List ℤ) :
    ∃ a origin carry, s.newArrays bos s.lastReq input = (a, origin, origin, carry) ∧
      HistoryOk bos { s with arrays := a } done ∧ s.arrays.next ≤ a.next ∧ origin < a.next ∧
      a.read origin = transcript bos done ++ appended bos done input ∧
      (s.arrays.next ≤ origin ∨
        ∃ last, s.lastReq = Option.some last ∧ origin = last.originInputIds) ∧
      ∀ fill ∈ carry, fill < a.next ∧ fill ≠ origin ∧
        a.read fill = transcript bos done ++ appended bos done input ∧
        ∃ last, s.lastReq = Option.some last ∧ fill = last.fullUntruncatedFillIds := by
  cases h with
  | none hlast hdone =>
    refine ⟨s.arrays.alloc input, s.arrays.next, Option.none, ?_, .none hlast hdone,
      le_succ _, lt_succ_self _, ?_, .inl le_rfl, nofun⟩
    · unfold State.newArrays
      rw [hlast]
    · rw [read_alloc, hdone]
      rfl
  | @some last c prompt full hlast hc hdone hok htr =>
    obtain ⟨a', carry, hshare, hnext, hok', horigin, hcarry⟩ := hok.share (stripBos bos input)
    have hprompt : transcript bos done ++ appended bos done input =
        prompt ++ last.outputIds ++ stripBos bos input := by
      rw [htr, appended, if_neg hdone]
    refine ⟨a', last.originInputIds, carry, ?_, .some hlast hc hdone hok' htr, hnext.ge,
      hok'.origin_lt, ?_, .inr ⟨last, hlast, rfl⟩, ?_⟩
    · unfold State.newArrays
      rw [hlast, hc]
      exact hshare
    · rw [hprompt, horigin]
    · intro fill hfill
      rcases hcarry with rfl | ⟨rfl, hread⟩
      · cases hfill
      · cases hfill
        exact ⟨hok'.fill_lt, hok.fill_ne, hprompt ▸ hread, last, hlast, rfl⟩

end

variable {a : Arrays}

/-- A request whose origin is its prompt and whose fill array, if it was carried over, is too. -/
lemma newReq_ok {origin : ℕ} {carry : Option ℕ} {prompt : List ℤ}
    (hhistory : HistoryOk bos { s with arrays := a } done) (hlt : origin < a.next)
    (horigin : a.read origin = prompt)
    (hcarry : ∀ fill ∈ carry, fill < a.next ∧ fill ≠ origin ∧ a.read fill = prompt)
    maxNewTokens :
    ∃ a' r, newReq a origin origin carry maxNewTokens = (a', r) ∧
      HistoryOk bos { s with arrays := a' } done ∧ a.next ≤ a'.next ∧
      r.originInputIds = origin ∧ r.outputIds = [] ∧ r.toFinish = false ∧
      (carry = some r.fullUntruncatedFillIds ∨ a.next = r.fullUntruncatedFillIds) ∧
      r.fullUntruncatedFillIds < a'.next ∧ (prompt ≠ [] → LiveOk a' r prompt) ∧
      (carry.isSome = true → a'.read r.fullUntruncatedFillIds = prompt) := by
  unfold newReq
  simp only [ite_self]
  cases carry with
  | none =>
    have hread : (a.alloc []).read origin = prompt := by rw [read_alloc_of_lt hlt, horigin]
    refine ⟨_, _, rfl, hhistory.alloc [], le_succ _, rfl, rfl, rfl, .inr rfl,
      lt_succ_self _, fun hne => ?_, nofun⟩
    exact
      { ne_nil := hne
        unpadded := rfl
        origin_lt := hlt.trans (lt_succ_self _)
        fill_ne := hlt.ne'
        origin := hread
        fill := .inl (by
          rw [read_alloc]
          exact length_pos_of_ne_nil hne) }
  | some fill =>
    obtain ⟨hfill, hne', hread⟩ := hcarry fill rfl
    refine ⟨_, _, rfl, hhistory, le_rfl, rfl, rfl, rfl, .inl rfl, hfill, fun hne => ?_,
      fun _ => hread⟩
    exact
      { ne_nil := hne
        unpadded := rfl
        origin_lt := hlt
        fill_ne := hne'
        origin := horigin
        fill := .inr ⟨0, Nat.zero_le _, by rw [hread, take_zero, append_nil]⟩ }

/-- What `create_req` returns when its first checks pass: a turn with an empty prompt is refused,
and any other gets its prompt as origin. -/
structure CreatedOk (bos : Option ℤ) (s : State) (done : List Turn) (prompt : List ℤ)
    (c : Created) : Prop where
  history : HistoryOk bos c.state done
  last : c.state.lastReq = s.lastReq
  next_le : s.arrays.next ≤ c.state.arrays.next
  origin_lt : c.req.originInputIds < c.state.arrays.next
  fill_lt : c.req.fullUntruncatedFillIds < c.state.arrays.next
  fill : s.arrays.next ≤ c.req.fullUntruncatedFillIds ∨
    ∃ last, s.lastReq = some last ∧ c.req.fullUntruncatedFillIds = last.fullUntruncatedFillIds
  output : c.req.outputIds = []
  rejected : c.rejected = none ↔ prompt ≠ []
  toFinish : c.req.toFinish = false ↔ c.rejected = none
  inflight : c.state.inflight = if c.rejected = none then true else s.inflight
  origin : c.rejected = none → s.arrays.next ≤ c.req.originInputIds ∨
    ∃ last, s.lastReq = some last ∧ c.req.originInputIds = last.originInputIds
  live : c.rejected = none → LiveOk c.state.arrays c.req prompt
  carried : c.rejected = none → c.carried = true →
    c.state.arrays.read c.req.fullUntruncatedFillIds = prompt

/-- A turn that is not refused starts with the transcript and its own input. -/
lemma HistoryOk.createReq {p : Params} (h : HistoryOk bos s done)
    (hreject : s.reject p = Option.none) (input : List ℤ) (maxNewTokens : ℕ) :
    CreatedOk bos s done (transcript bos done ++ appended bos done input)
      (s.createReq bos p input maxNewTokens) := by
  obtain ⟨a, origin, carry, hnew, hhistory, hle, hlt, horigin, hfrom, hcarry⟩ := h.newArrays input
  obtain ⟨a', r, hreq, hhistory', hle', hr, hout, hfinish, hfill, hfill_lt, hok, hcarried⟩ :=
    newReq_ok hhistory hlt horigin (fun f hf => ⟨(hcarry f hf).1, (hcarry f hf).2.1,
      (hcarry f hf).2.2.1⟩) maxNewTokens
  have hfill' : s.arrays.next ≤ r.fullUntruncatedFillIds ∨ ∃ last, s.lastReq = Option.some last ∧
        r.fullUntruncatedFillIds = last.fullUntruncatedFillIds := by
    rcases hfill with hsome | hnext
    · exact .inr (hcarry _ hsome).2.2.2
    · exact .inl (hle.trans hnext.le)
  rw [State.createReq]
  simp only [hreject, if_true, hnew, hreq, true_and, horigin]
  by_cases hempty : transcript bos done ++ appended bos done input = []
  · rw [if_pos hempty]
    exact
      { history := hhistory'.alloc [0]
        last := rfl
        next_le := hle.trans (hle'.trans (le_succ _))
        origin_lt := lt_succ_self _
        fill_lt := hfill_lt.trans (lt_succ_self _)
        fill := hfill'
        output := hout
        rejected := iff_of_false nofun fun hne => hne hempty
        toFinish := iff_of_false nofun nofun
        inflight := rfl
        origin := nofun
        live := nofun
        carried := nofun }
  · rw [if_neg hempty]
    exact
      { history := hhistory'.inflight true
        last := rfl
        next_le := hle.trans hle'
        origin_lt := (hr ▸ hlt).trans_le hle'
        fill_lt := hfill_lt
        fill := hfill'
        output := hout
        rejected := iff_of_true rfl hempty
        toFinish := iff_of_true hfinish rfl
        inflight := rfl
        origin := fun _ => hr ▸ hfrom
        live := fun _ => hok hempty
        carried := fun _ => hcarried }

/-- **`create_req`** between turns. -/
theorem Inv.createReq (h : Inv bos m) (hlive : m.live = none) (input : List ℤ) (maxNewTokens : ℕ) :
    CreatedOk bos m.session m.done (m.prompt bos input)
      (m.session.createReq bos .append input maxNewTokens) := by
  refine h.history.createReq ?_ input maxNewTokens
  rw [State.reject, h.idle hlive]
  rfl

/-! ## Progress -/

variable {r : Req}

/-- After `_refresh_fill_ids` the fill array is the prompt with the output so far. -/
lemma LiveOk.read_refresh {prompt : List ℤ} (h : LiveOk a r prompt) :
    (refreshFillIds a r).1.read (refreshFillIds a r).2.fullUntruncatedFillIds =
      prompt ++ r.outputIds := by
  rw [refreshFillIds]
  simp only [h.origin]
  split
  next hcan =>
    obtain ⟨-, h0, hle⟩ := hcan
    have hnat : ((a.read r.fullUntruncatedFillIds).length - prompt.length : ℤ).toNat =
        (a.read r.fullUntruncatedFillIds).length - prompt.length := by omega
    rw [read_extend, hnat, h.fill.append_drop prefix_rfl (by omega) (by omega)]
  next => rw [read_alloc]

/-- **`_refresh_fill_ids`** brings the fill array up to the output. -/
theorem LiveOk.refresh {prompt : List ℤ} (h : LiveOk a r prompt) :
    LiveOk (refreshFillIds a r).1 (refreshFillIds a r).2 prompt := by
  have hread := h.read_refresh
  rw [refreshFillIds] at hread ⊢
  split
  next hcan =>
    rw [if_pos hcan] at hread
    refine { h with origin := ?_, fill := .inr ⟨r.outputIds.length, le_rfl, ?_⟩ }
    · rw [read_extend_of_ne h.fill_ne.symm, h.origin]
    · rw [hread, take_length]
  next hcan =>
    rw [if_neg hcan] at hread
    refine
      { h with
        origin_lt := h.origin_lt.trans (lt_succ_self _)
        fill_ne := h.origin_lt.ne'
        origin := ?_
        fill := .inr ⟨r.outputIds.length, le_rfl, ?_⟩ }
    · rw [read_alloc_of_lt h.origin_lt, h.origin]
    · rw [hread, take_length]

/-- What a refresh leaves as it was. -/
structure Refreshed (a : Arrays) (r : Req) (a' : Arrays) (r' : Req) : Prop where
  next_le : a.next ≤ a'.next
  read : ∀ x < a.next, x ≠ r.fullUntruncatedFillIds → a'.read x = a.read x
  fill : r'.fullUntruncatedFillIds = r.fullUntruncatedFillIds ∨ a.next ≤ r'.fullUntruncatedFillIds
  fill_lt : r.fullUntruncatedFillIds < a.next → r'.fullUntruncatedFillIds < a'.next
  origin : r'.originInputIds = r.originInputIds
  output : r'.outputIds = r.outputIds
  toFinish : r'.toFinish = r.toFinish

lemma refreshFillIds_refreshed (a : Arrays) (r : Req) :
    Refreshed a r (refreshFillIds a r).1 (refreshFillIds a r).2 := by
  rw [refreshFillIds]
  split
  · exact ⟨le_rfl, fun x _ hne => read_extend_of_ne hne, .inl rfl, id, rfl, rfl, rfl⟩
  · exact ⟨le_succ _, fun x hx _ => read_alloc_of_lt hx, .inr le_rfl,
      fun _ => lt_succ_self _, rfl, rfl, rfl⟩

lemma HistoryOk.refresh (h : HistoryOk bos s done) (r : Req) :
    HistoryOk bos { s with arrays := (refreshFillIds s.arrays r).1 } done := by
  rw [refreshFillIds]
  split
  · exact h.extend _ _
  · exact h.alloc _

/-- A turn that finishes is added to the transcript with the tokens up to its stop. -/
lemma LiveOk.finish {input : List ℤ} {n : ℕ}
    (h : LiveOk s.arrays r (transcript bos done ++ appended bos done input))
    (hfill : r.fullUntruncatedFillIds < s.arrays.next) (hn : n ≤ r.maxNewTokens) :
    HistoryOk bos (s.finishTurn r n)
      (done ++ [{ input := input, output := r.outputIds.take n }]) := by
  have hok : LastOk s.arrays { r with outputIds := r.outputIds.take n }
      { origin := (s.arrays.read r.originInputIds).length
        unpadded := (s.arrays.read r.originInputIdsUnpadded).length
        fill := (s.arrays.read r.fullUntruncatedFillIds).length }
      (transcript bos done ++ appended bos done input) r.outputIds :=
    { unpadded := h.unpadded
      origin_lt := h.origin_lt
      fill_lt := hfill
      fill_ne := h.fill_ne
      output := take_prefix _ _
      output_le := (length_take_le _ _).trans hn
      origin := by rw [← h.origin]
      origin_len := by rw [← h.origin]
      fill := ⟨_, prefix_rfl, rfl, h.fill⟩ }
  exact .some rfl rfl (append_ne_nil_of_right_ne_nil _ (cons_ne_nil _ _)) hok
    (transcript_concat bos done _)

lemma Inv.start : Inv bos .start where
  idle _ := rfl
  history := .none rfl rfl
  fill_lt _ _ h := by cases h
  live _ _ h := by cases h

/-- Every event keeps the invariant; an aborted turn leaves the history as it was. -/
lemma Inv.step (h : Inv bos m) {e : Event} (hs : m.step bos e = some m') : Inv bos m' := by
  cases e with
  | create input maxNewTokens =>
    rw [Machine.step] at hs
    split at hs
    · cases hs
    next hlive =>
      have hc := h.createReq hlive input maxNewTokens
      cases hs
      refine ⟨nofun, hc.history, ?_, ?_⟩
      · simpa using hc.fill_lt
      · rintro r input' ⟨⟩ hnot
        exact hc.live (hc.toFinish.1 hnot)
  | preAbort =>
    obtain ⟨⟨r, input⟩, hlive, rfl⟩ := Option.map_eq_some_iff.1 hs
    refine ⟨nofun, h.history.alloc [0], ?_, ?_⟩
    · rintro r' input' ⟨⟩
      exact (h.fill_lt r input hlive).trans (lt_succ_self _)
    · rintro r' input' ⟨⟩ hnot
      cases hnot
  | refresh =>
    obtain ⟨⟨r, input⟩, hlive, rfl⟩ := Option.map_eq_some_iff.1 hs
    have hr := refreshFillIds_refreshed m.session.arrays r
    refine ⟨nofun, h.history.refresh r, ?_, ?_⟩
    · rintro r' input' ⟨⟩
      exact hr.fill_lt (h.fill_lt r input hlive)
    · rintro r' input' ⟨⟩ hnot
      exact (h.live r input hlive (hr.toFinish ▸ hnot)).refresh
  | accept tokens =>
    obtain ⟨⟨r, input⟩, hlive, rfl⟩ := Option.map_eq_some_iff.1 hs
    refine ⟨nofun, h.history, ?_, ?_⟩
    · simpa using h.fill_lt r input hlive
    · rintro r' input' ⟨⟩ hnot
      have hok := h.live r input hlive hnot
      exact { hok with fill := hok.fill.append tokens }
  | check stop terminated =>
    obtain ⟨⟨r, input⟩, hlive, hs⟩ := Option.bind_eq_some_iff.1 hs
    dsimp only at hs
    split at hs
    · cases hs
    next hnot =>
      rw [Bool.not_eq_true] at hnot
      cases hlen : r.finishedLen stop terminated with
      | none =>
        grind
      | some n =>
        rw [hlen] at hs
        cases hs
        have hok := h.live r input hlive hnot
        refine ⟨fun _ => rfl, ?_, nofun, nofun⟩
        exact LiveOk.finish hok (h.fill_lt r input hlive) (Req.finishedLen_le hlen)
  | abort =>
    obtain ⟨⟨r, input⟩, hlive, rfl⟩ := Option.map_eq_some_iff.1 hs
    exact ⟨fun _ => rfl, h.history.inflight false, nofun, nofun⟩

/-- A request that is refused comes back aborted, with one token for its origin. -/
lemma createReq_of_rejected (s : State) (p : Params) (input : List ℤ) (maxNewTokens : ℕ)
    (h : (s.createReq bos p input maxNewTokens).rejected ≠ none) :
    (s.createReq bos p input maxNewTokens).req.toFinish = true ∧
      (s.createReq bos p input maxNewTokens).state.arrays.read
        (s.createReq bos p input maxNewTokens).req.originInputIds = [0] := by
  rw [State.createReq] at h ⊢
  dsimp only at h ⊢
  split at h
  · exact ⟨rfl, read_alloc⟩
  · exact absurd rfl h

/-- **A session replays its history**: whenever a turn starts, `create_req` refuses it exactly if
its prompt is empty, and then returns a request that is marked aborted and has the origin `[0]`.
Otherwise it returns a request whose origin is the transcript of the finished turns followed by the
new input, as is its fill array if that was carried over. -/
theorem replays_transcript (hrun : Run (Machine.step bos) (fun _ _ => True) .start m)
    (hlive : m.live = none) (input : List ℤ) (maxNewTokens : ℕ) :
    let c := m.session.createReq bos .append input maxNewTokens
    (c.rejected = none ↔ m.prompt bos input ≠ []) ∧
      (c.rejected ≠ none →
        c.req.toFinish = true ∧ c.state.arrays.read c.req.originInputIds = [0]) ∧
      (c.rejected = none → c.state.arrays.read c.req.originInputIds = m.prompt bos input ∧
        (c.carried = true →
          c.state.arrays.read c.req.fullUntruncatedFillIds = m.prompt bos input)) := by
  have hinv : Inv bos m := hrun.invariant .start fun _ _ _ h _ hs => h.step hs
  have hc := hinv.createReq hlive input maxNewTokens
  exact ⟨hc.rejected, createReq_of_rejected _ _ _ _,
    fun hnone => ⟨(hc.live hnone).origin, hc.carried hnone⟩⟩

/-- A turn that finishes before its last token, one that is aborted while it runs, and a third. -/
theorem replays_after_abort :
    ∃ m, Run (Machine.step (some 1)) (fun _ _ => True) .start m ∧
      m.prompt (some 1) [1, 6] = [1, 2, 3, 4, 6] ∧
      (m.session.createReq (some 1) .append [1, 6] 8).state.arrays.read
        (m.session.createReq (some 1) .append [1, 6] 8).req.originInputIds = [1, 2, 3, 4, 6] := by
  refine Run.exists_of [.create [1, 2] 8, .refresh, .accept [3, 4, 5], .check (some 2) false,
      .create [1, 9] 8, .refresh, .accept [7], .refresh, .abort]
    (p := fun m => m.live.isNone ∧ m.prompt (some 1) [1, 6] = [1, 2, 3, 4, 6])
    (by decide) (by decide) fun m hrun hm => ?_
  obtain ⟨hreject, -, hok⟩ := replays_transcript hrun (Option.isNone_iff_eq_none.1 hm.1) [1, 6] 8
  have horigin := (hok (hreject.2 (by rw [hm.2]; exact cons_ne_nil _ _))).1
  exact ⟨hm.2, horigin.trans hm.2⟩

/-- A first turn without input is refused, and its origin is the one token of an aborted request. -/
theorem empty_turn_refused :
    Machine.start.prompt none [] = [] ∧
      (State.start.createReq none .append [] 8).rejected = some .noInput ∧
      (State.start.createReq none .append [] 8).req.toFinish = true ∧
      (State.start.createReq none .append [] 8).state.arrays.read
        (State.start.createReq none .append [] 8).req.originInputIds = [0] := by
  decide

end Sglang.Session
