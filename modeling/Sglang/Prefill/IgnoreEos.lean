import Sglang.Prefill.Admission

/-!
# Requests that decode to a known length

`add_one_req_ignore_eos` keeps a list of the requests it knows about, with the tokens each of them
still has to decode and the tokens it occupies, and admits a request only if a sweep over that list
finds that the pool never runs dry.

The list is sorted when it is built, and a later request is meant to be inserted in order.  The
loop that looks for its place falls through to the *last* entry if no entry has at least as many
tokens left, and the request is then inserted before that entry instead of after it
(`sortedByLeft_insert_iff`).

The sweep does not rely on the order, though: `Lib.Sweep.pos` holds for any list, so that an
admitted batch never runs out of memory while it decodes.
-/

namespace Sglang.Prefill
open Lib List Option

variable {c : Config} {s s' : Adder}

/-! ## The order of the list -/

/-- A list of requests is sorted by the tokens left. -/
def SortedByLeft (states : List ReqState) : Prop :=
  states.Pairwise fun a b => a.tokensLeft ≤ b.tokensLeft

instance (states : List ReqState) : Decidable (SortedByLeft states) :=
  inferInstanceAs (Decidable (states.Pairwise _))

instance : Std.Total fun a b : ReqState => a.tokensLeft ≤ b.tokensLeft :=
  ⟨fun a b => le_total a.tokensLeft b.tokensLeft⟩

instance : IsTrans ReqState fun a b => a.tokensLeft ≤ b.tokensLeft :=
  ⟨fun _ _ _ => le_trans⟩

lemma insertIdx_length_append {α : Type*} (x : α) (post : List α) :
    ∀ pre, (pre ++ post).insertIdx pre.length x = pre ++ x :: post
  | [] => insertIdx_zero
  | y :: pre => congrArg (y :: ·) (insertIdx_length_append x post pre)

variable {states : List ReqState}

/-- The loop stops at the first entry with at least as many tokens left. -/
lemma findIdx?_eq_some_split {left : ℚ} {i : ℕ}
    (h : states.findIdx? (fun r => decide (left ≤ r.tokensLeft)) = some i) :
    ∃ pre x post, states = pre ++ x :: post ∧ i = pre.length ∧ left ≤ x.tokensLeft ∧
      ∀ r ∈ pre, r.tokensLeft < left := by
  induction states generalizing i with
  | nil => exact absurd h (by simp)
  | cons r states ih =>
    rw [findIdx?_cons] at h
    by_cases hr : left ≤ r.tokensLeft
    · rw [if_pos (by simpa using hr), some_inj] at h
      exact ⟨[], r, states, rfl, h.symm, hr, fun _ hm => by cases hm⟩
    · grind [map_eq_some_iff]

lemma sortedByLeft_insert_before {pre post : List ReqState} {x r : ReqState}
    (h : SortedByLeft (pre ++ x :: post)) (hx : r.tokensLeft ≤ x.tokensLeft)
    (hpre : ∀ y ∈ pre, y.tokensLeft < r.tokensLeft) :
    SortedByLeft (pre ++ r :: x :: post) := by
  obtain ⟨h1, h2, h3⟩ := pairwise_append.1 h
  refine pairwise_append.2 ⟨h1, pairwise_cons.2 ⟨fun y hy => ?_, h2⟩, ?_⟩
  · rcases mem_cons.1 hy with rfl | hy
    · exact hx
    · exact hx.trans ((pairwise_cons.1 h2).1 y hy)
  · grind

/-- **The insertion keeps the order exactly if some entry has at least as many tokens left**, or
there is no entry yet. -/
theorem sortedByLeft_insert_iff (h : SortedByLeft states) (r : ReqState) :
    SortedByLeft (states.insertIdx (Adder.insertPosition states r.tokensLeft) r) ↔
      states = [] ∨ ∃ x ∈ states, r.tokensLeft ≤ x.tokensLeft := by
  rw [Adder.insertPosition]
  cases hi : states.findIdx? fun x => decide (r.tokensLeft ≤ x.tokensLeft) with
  | some i =>
    obtain ⟨pre, x, post, rfl, rfl, hx, hpre⟩ := findIdx?_eq_some_split hi
    rw [insertIdx_length_append]
    exact iff_of_true (sortedByLeft_insert_before h hx hpre) (.inr ⟨x, by simp, hx⟩)
  | none =>
    have hall : ∀ x ∈ states, x.tokensLeft < r.tokensLeft := by
      simpa [findIdx?_eq_none_iff] using hi
    rcases eq_nil_or_concat states with rfl | ⟨init, last, rfl⟩
    · exact iff_of_true (pairwise_singleton _ _) (.inl rfl)
    -- the loop variable is left at the last entry, and the request goes before it
    have hlast := hall last (by simp)
    rw [concat_eq_append, length_append, length_singleton, Nat.add_sub_cancel,
      insertIdx_length_append]
    refine iff_of_false (fun hs => ?_) fun hex => ?_
    · have := (pairwise_append.1 hs).2.1
      exact absurd ((pairwise_cons.1 this).1 last (by simp)) (not_le.2 hlast)
    · grind

namespace Adder

/-- `req_states`, once it exists, is sorted by the tokens left. -/
def InOrder (s : Adder) : Prop := ∀ states ∈ s.reqStates, SortedByLeft states

instance (s : Adder) : Decidable s.InOrder :=
  inferInstanceAs (Decidable (∀ states ∈ s.reqStates, SortedByLeft states))

/-- What a call of `add_one_req_ignore_eos` is given. -/
structure IgnoreEosCall where
  req : Req
  allowsPrefill : Bool

/-- The state after a call, unless the code raises. -/
def ignoreEosStep (c : Config) (s : Adder) (call : IgnoreEosCall) : Option Adder :=
  (s.addOneReqIgnoreEos c call.req call.allowsPrefill).toOption.map Outcome.adder

/-- The whole input of the request fits into what is left of the pool. -/
def FitsPool (c : Config) (s : Adder) (req : Req) : Prop :=
  (c.memory.ceil req.candExtendInputLen : ℚ) ≤
    min (c.memory.remainingCurrent s.budget : ℚ) (c.memory.remainingTotal s.budget)

instance (c : Config) (s : Adder) (req : Req) : Decidable (s.FitsPool c req) :=
  inferInstanceAs (Decidable (_ ≤ _))

/-- A request that fits and still decodes does not have more tokens left than every request that is
already tracked. -/
def KeepsOrder (c : Config) (s : Adder) (call : IgnoreEosCall) : Prop :=
  s.FitsPool c call.req → ∀ states ∈ s.reqStates, 0 < (reqState c call.req).tokensLeft →
    states = [] ∨ ∃ x ∈ states, (reqState c call.req).tokensLeft ≤ x.tokensLeft

instance (c : Config) (s : Adder) (call : IgnoreEosCall) : Decidable (KeepsOrder c s call) :=
  inferInstanceAs (Decidable (_ → ∀ states ∈ s.reqStates, _ → _ ∨ _))

variable {req : Req}

/-- The list that the call works with is sorted exactly if the request keeps the order. -/
lemma sortedByLeft_trackReq_iff (h : s.InOrder) :
    SortedByLeft (s.trackReq c req) ↔ ∀ states ∈ s.reqStates,
      0 < (reqState c req).tokensLeft →
        states = [] ∨ ∃ x ∈ states, (reqState c req).tokensLeft ≤ x.tokensLeft := by
  rw [trackReq]
  cases hs : s.reqStates with
  | none => exact iff_of_true (pairwise_insertionSort _ _) (fun _ hm => by cases hm)
  | some states =>
    have hsorted : SortedByLeft states := h states hs
    dsimp only
    rw [insertReqState]
    by_cases hle : (reqState c req).tokensLeft ≤ 0
    · grind
    rw [if_neg hle, sortedByLeft_insert_iff hsorted]
    refine ⟨fun hex st hst _ => ?_, fun hall => hall states rfl (not_le.1 hle)⟩
    cases hst
    exact hex

/-! ## One call -/

variable {call : IgnoreEosCall}

lemma ignoreEosStep_cases (hswa : c.memory.swa = none) (h : ignoreEosStep c s call = some s') :
    ¬ s.FitsPool c call.req ∧ s' = s ∨ s.FitsPool c call.req ∧ (s' = s.tracked c call.req ∨
        sweepReqStates (c.memory.remainingCurrent s.budget -
          c.memory.ceil call.req.candExtendInputLen) 0 (s.trackReq c call.req) = true ∧
        ∃ e maxNew, e ≤ call.req.candExtendInputLen ∧
          Joined c (s.tracked c call.req) call.req call.req.prefixLen e maxNew s') := by
  obtain ⟨o, ho, rfl⟩ := map_eq_some_iff.1 h
  have hfits : c.memory.canAllocatePrefill s.budget (c.memory.ceil call.req.candExtendInputLen)
      call.req.candExtendInputLen (c.swaNewTokens call.req) s.remChunkTokens =
        decide (s.FitsPool c call.req) := by
    rw [Memory.canAllocatePrefill, hswa, Bool.and_true]
    rfl
  rcases addOneReqIgnoreEos_cases (toOption_ok ho) with ⟨hnot, heq⟩ | ⟨hyes, hcase⟩
  · exact .inl ⟨by simpa [hfits] using hnot, heq⟩
  · grind

lemma reqStates_of_ignoreEosStep (hswa : c.memory.swa = none)
    (h : ignoreEosStep c s call = some s') :
    ¬ s.FitsPool c call.req ∧ s'.reqStates = s.reqStates ∨
      s.FitsPool c call.req ∧ s'.reqStates = some (s.trackReq c call.req) := by
  rcases ignoreEosStep_cases hswa h with ⟨hnot, rfl⟩ | ⟨hfits, rfl | ⟨-, e, maxNew, -, hjoin⟩⟩
  · exact .inl ⟨hnot, rfl⟩
  · exact .inr ⟨hfits, rfl⟩
  · exact .inr ⟨hfits, hjoin.reqStates⟩

lemma inOrder_ignoreEosStep_iff (hswa : c.memory.swa = none) (h : s.InOrder)
    (hs : ignoreEosStep c s call = some s') : s'.InOrder ↔ KeepsOrder c s call := by
  rw [KeepsOrder, ← sortedByLeft_trackReq_iff h]
  rcases reqStates_of_ignoreEosStep hswa hs with ⟨hnot, heq⟩ | ⟨hfits, heq⟩
  · grind [InOrder]
  · grind [InOrder]

/-! ## Decoding in lockstep -/

/-- A tracked request as a job: in every step it takes a token for what it decodes, and it gives
back what it occupies when it has no tokens left. -/
def job (r : ReqState) : Job ℚ := ⟨r.tokensLeft, r.tokensOccupied⟩

/-- The tokens that the prefill of the batch allocates, in whole pages. -/
def prefillTokens (c : Config) (s : Adder) : ℤ :=
  (s.canRunList.map fun a => c.memory.ceil a.extendLen).sum

/-- The tracked requests as they start to decode, after the prefill of the batch. -/
def decoding (c : Config) (s : Adder) : Lockstep ℚ where
  free := c.memory.availableAndEvictable s.budget.pools - s.prefillTokens c
  jobs := (s.reqStates.getD []).map job

/-- The prefill of the batch is covered by what has been charged. -/
def Charged (c : Config) (s : Adder) : Prop := s.prefillTokens c ≤ s.budget.currentOffset

lemma prefillTokens_joined {start e maxNew : ℤ} (h : Joined c s req start e maxNew s') :
    s'.prefillTokens c = s.prefillTokens c + c.memory.ceil e := by
  simp [prefillTokens, h.canRunList, Admitted.extendLen]

lemma charged_start (c : Config) (pools : Pools) (input : ℤ) (chunk : Option ℤ) (mixed : ℕ) :
    (start c pools input chunk mixed).Charged c := by
  rw [Charged, prefillTokens, start]
  simp

lemma sweepReqStates_iff (cur : ℚ) : ∀ (freed : ℚ) (states : List ReqState),
    sweepReqStates cur freed states = true ↔
      Sweep ignoreEosReserveTokens (cur + freed) (states.map job)
  | _, [] => iff_of_true rfl trivial
  | freed, r :: states => by
    rw [sweepReqStates, map_cons, Sweep, length_map, ← not_le]
    split
    · exact iff_of_false Bool.false_ne_true fun h => h.1 ‹_›
    · rw [sweepReqStates_iff cur, ← add_assoc]
      exact ⟨fun h => ⟨‹_›, h⟩, fun h => h.2⟩

/-- Every tracked request has tokens left. -/
def TracksRunning (s : Adder) : Prop := ∀ states ∈ s.reqStates, ∀ r ∈ states, 0 < r.tokensLeft

lemma pos_of_mem_foldl_append {c : Config} : ∀ (reqs : List Req) (states : List ReqState),
    (∀ r ∈ states, 0 < r.tokensLeft) → ∀ r ∈ reqs.foldl (appendReqState c) states, 0 < r.tokensLeft
  | [], _, h => h
  | req :: reqs, states, h => by
    refine pos_of_mem_foldl_append reqs _ ?_
    rw [appendReqState]
    split
    · exact h
    intro r hr
    rcases mem_append.1 hr with hr | hr
    · exact h r hr
    · rw [mem_singleton.1 hr]
      exact not_le.1 ‹_›

lemma pos_of_mem_trackReq (h : s.TracksRunning) : ∀ r ∈ s.trackReq c req, 0 < r.tokensLeft := by
  rw [trackReq]
  cases hs : s.reqStates with
  | none =>
    intro r hr
    exact pos_of_mem_foldl_append _ [] (fun _ hm => by cases hm) r
      ((mem_insertionSort _).1 hr)
  | some states =>
    dsimp only
    rw [insertReqState]
    split
    · exact h states hs
    intro r hr
    rcases mem_cons.1 (insertIdx_subset_cons _ _ _ hr) with rfl | hr
    · exact not_le.1 ‹_›
    · exact h states hs r hr

/-- What every call of the pass keeps: each tracked request has tokens left, and the prefill of the
batch is charged. -/
lemma keeps_ignoreEosStep (hswa : c.memory.swa = none) (htracks : s.TracksRunning)
    (hcharged : s.Charged c) (h : ignoreEosStep c s call = some s') :
    s'.TracksRunning ∧ s'.Charged c := by
  refine ⟨?_, ?_⟩
  · rw [TracksRunning]
    rcases reqStates_of_ignoreEosStep hswa h with ⟨-, heq⟩ | ⟨-, heq⟩ <;> rw [heq]
    · exact htracks
    · intro states hst
      cases hst
      exact pos_of_mem_trackReq htracks
  · rcases ignoreEosStep_cases hswa h with ⟨-, rfl⟩ | ⟨-, rfl | ⟨-, e, maxNew, -, hjoin⟩⟩
    · exact hcharged
    · exact hcharged
    · rw [Charged, prefillTokens_joined hjoin, hjoin.budget, Memory.reserve, c.memory.ceil_ceil]
      have hs : (s.tracked c call.req).prefillTokens c ≤ s.budget.currentOffset := hcharged
      dsimp only [tracked] at hs ⊢
      linarith

/-- **An admitted batch never runs out of memory while it decodes.** -/
theorem decoding_low_pos (hswa : c.memory.swa = none) (htracks : s.TracksRunning)
    (hcharged : s.Charged c) (h : ignoreEosStep c s call = some s')
    (hadmits : s'.canRunList ≠ s.canRunList) (t : ℕ) (hrun : ((s'.decoding c).after t).jobs ≠ []) :
    0 < ((s'.decoding c).after t).low := by
  rcases ignoreEosStep_cases hswa h with ⟨-, rfl⟩ | ⟨-, rfl | ⟨hsweep, e, maxNew, hle, hjoin⟩⟩
  · exact absurd rfl hadmits
  · exact absurd rfl hadmits
  · have hstates : s'.reqStates = some (s.trackReq c call.req) := hjoin.reqStates
    have hjobs : (s'.decoding c).jobs = (s.trackReq c call.req).map job := by
      rw [decoding, hstates, getD_some]
    -- the sweep was made with less than what is free after the prefill
    have hfree : (c.memory.remainingCurrent s.budget : ℚ) -
        c.memory.ceil call.req.candExtendInputLen + 0 ≤ (s'.decoding c).free := by
      have hpools : s'.budget.pools = s.budget.pools := by
        rw [hjoin.budget, Memory.reserve]
        rfl
      have hpre : s'.prefillTokens c = (s.tracked c call.req).prefillTokens c + c.memory.ceil e :=
        prefillTokens_joined hjoin
      have hceil : c.memory.ceil e ≤ c.memory.ceil call.req.candExtendInputLen :=
        ceilPagedTokens_mono c.memory.page_pos' hle
      have hcharge : (s.tracked c call.req).prefillTokens c ≤ s.budget.currentOffset := hcharged
      have hint : c.memory.remainingCurrent s.budget -
          c.memory.ceil call.req.candExtendInputLen ≤
            c.memory.availableAndEvictable s'.budget.pools - s'.prefillTokens c := by
        grind [Memory.remainingCurrent]
      rw [add_zero, decoding]
      dsimp only
      exact_mod_cast hint
    have hpos : ∀ x ∈ (s'.decoding c).jobs, 0 < x.left ∧ 0 ≤ x.held := by
      rw [hjobs]
      intro x hx
      obtain ⟨r, hr, rfl⟩ := List.mem_map.1 hx
      exact ⟨pos_of_mem_trackReq htracks r hr, Nat.cast_nonneg _⟩
    have hsw := ((sweepReqStates_iff _ _ _).1 hsweep).mono hfree
    rw [← hjobs] at hsw
    exact hsw.pos le_rfl (fun x hx => (hpos x hx).1) (fun x hx => (hpos x hx).2) t hrun

/-! ## The pass -/

/-- **A pass of calls for requests of known length.**  While every request keeps the order, the
list stays sorted, and from a sorted list a call keeps it sorted in no other case.  Whenever a
request is admitted, sorted or not, the tracked requests decode to their ends without using up the
tokens that the prefill of the batch leaves free. -/
theorem ignoreEos_pass (c : Config) (hswa : c.memory.swa = none) (s₀ : Adder)
    (h₀ : s₀.reqStates = none) (hcharged : s₀.Charged c) :
    (∀ s, Run (ignoreEosStep c) (KeepsOrder c) s₀ s → s.InOrder) ∧
    (∀ s call s', s.InOrder → ignoreEosStep c s call = some s' →
      (s'.InOrder ↔ KeepsOrder c s call)) ∧
    (∀ s call s', Run (ignoreEosStep c) (fun _ _ => True) s₀ s →
      ignoreEosStep c s call = some s' → s'.canRunList ≠ s.canRunList →
        ∀ t, ((s'.decoding c).after t).jobs ≠ [] → 0 < ((s'.decoding c).after t).low) := by
  have hnone : ∀ {p : List ReqState → Prop}, ∀ states ∈ s₀.reqStates, p states := by
    grind
  refine ⟨fun s hrun => ?_, fun s call s' h hs => inOrder_ignoreEosStep_iff hswa h hs,
    fun s call s' hrun hs hadmits => ?_⟩
  · exact hrun.invariant hnone fun s call s' h hok hs => (inOrder_ignoreEosStep_iff hswa h hs).2 hok
  · have hinv : s.TracksRunning ∧ s.Charged c :=
      hrun.invariant ⟨hnone, hcharged⟩ fun s call s' h _ hs =>
        keeps_ignoreEosStep hswa h.1 h.2 hs
    exact decoding_low_pos hswa hinv.1 hinv.2 hs hadmits

/-! ### A pass that puts a longer request before a shorter one -/

/-- One pool with a page size of one, and nothing running. -/
def plainConfig : Config where
  memory := { pageSize := 1, swa := none, page_pos := Nat.one_pos }
  clipMaxNewTokens := 4096
  newTokenRatio := 1
  exactChunkFill := false
  shortestPrefillFirst := false
  treeCacheDisabled := true
  boundedReplay := false
  prefillMaxRequests := none
  runningReqs := []
  tilesExceed := fun _ _ => false

/-- A pass over a pool with a hundred free tokens. -/
def plainStart : Adder := start plainConfig ⟨100, 0, 0, 0⟩ 1000 (some 1000) 0

/-- A request with a prompt of four tokens that decodes `n` tokens. -/
def decodes (n : ℕ) : IgnoreEosCall where
  req :=
    { originInputLen := 4, outputLen := 0, fillLen := 4, prefixLen := 0, hostHitLength := 0
      swaHostHitLength := 0, maxNewTokens := n, ignoreEos := true, finished := false
      replays := false, toFinish := none, matched_lt := by decide }
  allowsPrefill := true

/-- Two requests are admitted, the second with more tokens left: it ends up in front. -/
theorem longer_request_first :
    ∃ s, Run (ignoreEosStep plainConfig) (fun _ _ => True) plainStart s ∧
      (s.canRunList.length = 2 ∧ s.reqStates = some [⟨20, 4⟩, ⟨10, 4⟩]) ∧ ¬ s.InOrder := by
  exact Run.exists_of [decodes 10, decodes 20] (by decide +kernel) (by decide +kernel) fun _ _ => id

/-- Two requests are admitted, the shorter one second; the list is sorted, and the batch decodes. -/
theorem ignoreEos_pass_shorter_second :
    ∃ s s', Run (ignoreEosStep plainConfig) (KeepsOrder plainConfig) plainStart s ∧
      ignoreEosStep plainConfig s (decodes 10) = some s' ∧ s'.canRunList.length = 2 ∧ s'.InOrder ∧
      ∀ t, ((s'.decoding plainConfig).after t).jobs ≠ [] →
        0 < ((s'.decoding plainConfig).after t).low := by
  obtain ⟨s, hrun, hs⟩ := Run.exists_of_any (ignoreEosStep plainConfig) (KeepsOrder plainConfig)
    plainStart [decodes 20]
    (fun s => KeepsOrder plainConfig s (decodes 10) ∧ s.canRunList.length = 1 ∧
      ∃ t ∈ ignoreEosStep plainConfig s (decodes 10), t.canRunList.length = 2)
    (by decide +kernel) (by decide +kernel)
  obtain ⟨hok, hlen, s', hstep, hlen'⟩ := hs
  obtain ⟨horder, hiff, hdecode⟩ := ignoreEos_pass plainConfig rfl plainStart rfl
    (charged_start ..)
  refine ⟨s, s', hrun, hstep, hlen', (hiff s _ s' (horder s hrun) hstep).2 hok,
    hdecode s _ s' (hrun.mono fun _ _ _ => trivial) hstep fun heq => ?_⟩
  rw [heq, hlen] at hlen'
  exact absurd hlen' (by decide)

end Adder
end Sglang.Prefill
