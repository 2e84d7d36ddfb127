import Sglang.Output.Request

/-!
# Accepting a run of tokens

Speculative decoding accepts several tokens in one step.  `acceptRun` appends the run and decides
once; `acceptEach` appends one token at a time and stops at the first one that finishes the
request.  What each of the two answers is said by the first token of the run at which something
happens: for `acceptEach` a stop string, a stop token or the end of the budget, whichever comes
first (`acceptEach_outcome`); for `acceptRun` the completion of the *first stop string of the list*
that occurs in the run at all, and a stop token only if there is none (`acceptRun_of_str`).

The two agree as long as nothing else stops the request before that stop string is complete.
-/

namespace Sglang.Output
open Lib List

namespace Req
open Option
variable {py : Python} {r : Req} {ts : List ℤ} {k j m : ℕ}

/-! ## What the decision looks at -/

/-- How long the output is when the request is finished, and the kind of the reason. -/
def outcome (r : Req) : Option ℕ × Option FinishKind :=
  (r.finishedLen, r.finishedReason.map FinishReason.kind)

/-- A request that is not finished, without a pending abort, a grammar or stop regexes. -/
structure Plain (r : Req) : Prop where
  reason : r.finishedReason = none
  toFinish : r.toFinish = none
  grammar : r.grammar = none
  regexes : r.samplingParams.stopRegexStrs = []

/-- A token that `_check_token_based_finish` stops at. -/
def stopsAt (r : Req) (t : ℤ) : Bool := !r.samplingParams.ignoreEos && r.isStopToken t

/-- A finish at `n` tokens, after the cap. -/
def capped (max n : ℕ) (kind : FinishKind) : Option ℕ × Option FinishKind :=
  if max < n then (some max, some .length) else (some n, some kind)

lemma outcome_cap {reason : FinishReason} {n : ℕ} :
    outcome (capFinishedLenAtMaxNewTokens
      { r with finishedReason := some reason, finishedLen := some n }) =
      capped r.samplingParams.maxNewTokens n reason.kind := by
  unfold capFinishedLenAtMaxNewTokens capped outcome
  dsimp only
  split <;> rfl

lemma finished_iff_outcome : r.finished = true ↔ r.outcome.2 ≠ none := by
  rw [finished, outcome, isSome_iff_ne_none]
  simp

/-- `decoded_text` is empty, so a stop string is found in the tail or not at all. -/
lemma checkStopStrs_eq (tail : Text) (stops : List Text) :
    r.checkStopStrs k tail stops = (stops.find? fun s => decide (s <:+: tail)).map fun s =>
      { r with
        finishedReason := some (.matchedStr s)
        finishedLen := some (r.locateStrStopFinishedLen k fun text => decide (s <:+: text)) } := by
  induction stops with
  | nil => rfl
  | cons s stops ih =>
    rw [checkStopStrs]
    by_cases hs : s <:+: tail
    · rw [if_pos hs, find?_cons_of_pos (by simpa using hs)]
      rfl
    · have hne : ¬ s <:+: r.decodedText := by
        rw [r.decodedText_nil, infix_nil]
        rintro rfl
        exact hs ( nil_infix)
      rw [if_neg hs, if_neg hne, find?_cons_of_neg (by simpa using hs), ih]

variable {ids : List ℤ}

lemma checkVocabBoundaryFinish_eq_none (h : ∀ t ∈ ids, r.outOfVocab t = false) :
    r.checkVocabBoundaryFinish ids = none := by
  grind [checkVocabBoundaryFinish]

/-- The decision for a request that is not finished, after tokens of the vocabulary. -/
lemma updateFinishState_eq (hreason : r.finishedReason = none) (hto : r.toFinish = none)
    (hv : ∀ t ∈ lastN k r.outputIds, r.outOfVocab t = false) :
    r.updateFinishState py k = match r.checkStrBasedFinish py k with
      | (r', true) => r'.capFinishedLenAtMaxNewTokens
      | (r', false) => r'.finishByTokenOrLength (lastN k r.outputIds) := by
  grind [updateFinishState, finished, checkVocabBoundaryFinish_eq_none]

/-- The decision for a plain request. -/
lemma updateFinishState_plain (hr : r.Plain)
    (hv : ∀ t ∈ lastN k r.outputIds, r.outOfVocab t = false) :
    r.updateFinishState py k =
      match r.samplingParams.stopStrs.find? fun s => decide (s <:+: r.tailStr k) with
      | some s => capFinishedLenAtMaxNewTokens { r with
          finishedReason := some (.matchedStr s)
          finishedLen := some (r.locateStrStopFinishedLen k fun text => decide (s <:+: text)) }
      | none => r.finishByTokenOrLength (lastN k r.outputIds) := by
  rw [updateFinishState_eq hr.reason hr.toFinish hv, checkStrBasedFinish, checkStopStrs_eq,
    hr.regexes, checkStopRegexes]
  cases r.samplingParams.stopStrs.find? fun s => decide (s <:+: r.tailStr k) <;> rfl

/-! ## Tokens and the budget -/

lemma checkTokenBasedFinish_of_none (h : ∀ t ∈ ids, r.stopsAt t = false) :
    r.checkTokenBasedFinish ids = none := by
  rw [checkTokenBasedFinish]
  by_cases he : r.samplingParams.ignoreEos
  · rw [if_pos he]
  · rw [if_neg he, map_eq_none_iff, find?_eq_none]
    intro p hp
    have := h p.1 (fst_mem_of_mem_zipIdx hp)
    rw [stopsAt] at this
    simpa [he] using this

/-- The first stop token of the run decides, unless the budget ends before it. -/
lemma finishByTokenOrLength_of_token {i : ℕ} (hi : i < ids.length)
    (hstop : r.stopsAt (ids.get ⟨i, hi⟩) = true)
    (hfirst : ∀ j (h : j < i), r.stopsAt (ids.get ⟨j, h.trans hi⟩) = false) :
    outcome (r.finishByTokenOrLength ids) =
      capped r.samplingParams.maxNewTokens (r.outputIds.length - ids.length + i + 1)
        .matchedToken := by
  have he : r.samplingParams.ignoreEos = false := by
    simp_all [stopsAt, Bool.and_eq_true]
  have hf : (ids.zipIdx.find? fun p => r.isStopToken p.1) = some (ids.get ⟨i, hi⟩, i) := by
    rw [find?_eq_some_iff_getElem]
    refine ⟨by simpa [stopsAt, he] using hstop, i, by simpa using hi, by simp, fun j hj => ?_⟩
    simpa [stopsAt, he] using hfirst j hj
  have hc : r.checkTokenBasedFinish ids = some { r with
      finishedReason := some (.matchedToken (ids.get ⟨i, hi⟩))
      finishedLen := some (r.outputIds.length - ids.length + i + 1) } := by
    grind [checkTokenBasedFinish]
  rw [finishByTokenOrLength, hc]
  exact outcome_cap

lemma finishByTokenOrLength_of_length (h : ∀ t ∈ ids, r.stopsAt t = false)
    (hlen : r.samplingParams.maxNewTokens ≤ r.outputIds.length) :
    outcome (r.finishByTokenOrLength ids) = (some r.samplingParams.maxNewTokens, some .length) := by
  rw [finishByTokenOrLength, checkTokenBasedFinish_of_none h]
  rw [if_pos hlen]
  rfl

lemma finishByTokenOrLength_of_none (hg : r.grammar = none) (h : ∀ t ∈ ids, r.stopsAt t = false)
    (hlen : r.outputIds.length < r.samplingParams.maxNewTokens) :
    r.finishByTokenOrLength ids = r := by
  rw [finishByTokenOrLength, checkTokenBasedFinish_of_none h]
  rw [if_neg (by omega), hg, if_neg (by exact fun h => by cases h)]

/-! ## The window -/

/-- The tokens that a run is searched in: the last of the old ones and the run. -/
def window (r : Req) (ts : List ℤ) : List ℤ :=
  r.outputIds.drop (r.outputIds.length + 1 - r.maxLenTailStr) ++ ts

@[simp] lemma decode_push (ids : List ℤ) : (r.push ts).decode ids = r.decode ids := rfl

@[simp] lemma length_push : (r.push ts).outputIds.length = r.outputIds.length + ts.length :=
  length_append

lemma one_le_maxLenTailStr (r : Req) : 1 ≤ r.maxLenTailStr := by
  rw [maxLenTailStr]
  omega

/-- The window of a run is longer than that of one token by the tokens the run has more. -/
lemma stopMatchTailLen_push (hts : ts ≠ []) :
    (r.push ts).stopMatchTailLen ts.length =
      min (r.maxLenTailStr + ts.length - 1) (r.outputIds.length + ts.length) := by
  have := length_pos_iff.2 hts
  have hL : (r.push ts).maxLenTailStr = r.maxLenTailStr := rfl
  rw [stopMatchTailLen, length_push, hL]
  omega

/-- The tokens that the tail is decoded from. -/
lemma drop_window (hts : ts ≠ []) :
    (r.push ts).outputIds.drop ((r.push ts).outputIds.length -
      (r.push ts).stopMatchTailLen ts.length) = r.window ts := by
  have := length_pos_iff.2 hts
  have hL := r.one_le_maxLenTailStr
  rw [stopMatchTailLen_push hts, length_push, window]
  have hstart : r.outputIds.length + ts.length -
      min (r.maxLenTailStr + ts.length - 1) (r.outputIds.length + ts.length) =
      r.outputIds.length + 1 - r.maxLenTailStr := by omega
  rw [hstart]
  exact drop_append_of_le_length (by omega)

lemma lastN_of_pos {α : Type} {n : ℕ} (hn : n ≠ 0) (l : List α) :
    lastN n l = l.drop (l.length - n) := if_neg hn

lemma tailStr_push (hts : ts ≠ []) (hs : r.samplingParams.stopStrs ≠ []) :
    (r.push ts).tailStr ts.length = r.decode (r.window ts) := by
  have := length_pos_iff.2 hts
  have hL := r.one_le_maxLenTailStr
  rw [tailStr, if_neg (fun h => hs h.1), lastN_of_pos, drop_window hts, decode_push]
  rw [stopMatchTailLen_push hts]
  omega

lemma lastN_push (hts : ts ≠ []) : lastN ts.length (r.push ts).outputIds = ts := by
  rw [lastN_of_pos (length_pos_iff.2 hts).ne', length_push, Nat.add_sub_cancel]
  exact drop_left

/-- The position of the token that completes a match. -/
lemma locateStrStopFinishedLen_push {matched : Text → Bool} (hj : 1 ≤ j) (hk : j ≤ ts.length)
    (hm : matched (r.decode (r.window (ts.take j))) = true)
    (hfirst : ∀ i, 1 ≤ i → i < j → matched (r.decode (r.window (ts.take i))) = false) :
    (r.push ts).locateStrStopFinishedLen ts.length matched = r.outputIds.length + j := by
  have hts : ts ≠ [] := by rintro rfl; simp at hk; omega
  have hL := r.one_le_maxLenTailStr
  set d := r.outputIds.length - (r.outputIds.length + 1 - r.maxLenTailStr) with hd
  have hwin : (r.window ts).length = d + ts.length := by
    rw [window, length_append, length_drop]
  have htake : ∀ i, (r.window ts).take (d + i) = r.window (ts.take i) := by
    intro i
    rw [window, window, hd, ← length_drop, take_length_add_append]
  have hstart : (r.push ts).outputIds.length - (r.push ts).stopMatchTailLen ts.length + d =
      r.outputIds.length := by
    rw [stopMatchTailLen_push hts, length_push]
    omega
  unfold locateStrStopFinishedLen
  simp only [drop_window hts, hwin, decode_push]
  rw [show max 1 (d + ts.length + 1 - ts.length) = d + 1 by omega]
  by_cases hlast : j = ts.length
  · have hnone : (range' (d + 1) (d + ts.length - (d + 1))).find? (fun c =>
        matched (r.decode ((r.window ts).take c))) = none := by
      rw [find?_eq_none]
      intro c hc
      rw [mem_range'_1] at hc
      obtain ⟨i, rfl⟩ := Nat.exists_eq_add_of_le (show d ≤ c by omega)
      rw [htake, hfirst i (by omega) (by omega)]
      exact Bool.false_ne_true
    rw [hnone, hlast]
    exact length_push
  · have hsome : (range' (d + 1) (d + ts.length - (d + 1))).find? (fun c =>
        matched (r.decode ((r.window ts).take c))) = some (d + j) := by
      rw [find?_eq_some_iff_getElem]
      refine ⟨by rw [htake]; exact hm, j - 1, by rw [length_range']; omega,
        by rw [getElem_range']; omega, fun i hi => ?_⟩
      rw [getElem_range', show d + 1 + 1 * i = d + (i + 1) by omega, htake,
        hfirst (i + 1) (by omega) (by omega)]
      rfl
    rw [hsome]
    dsimp only
    omega

/-! ## The two ways of accepting -/

/-- The run is appended and looked at once. -/
def acceptRun (py : Python) (r : Req) (ts : List ℤ) : Req :=
  (r.push ts).updateFinishState py ts.length

/-- The tokens are appended one at a time until the request finishes. -/
def acceptEach (py : Python) : Req → List ℤ → Req
  | r, [] => r
  | r, t :: ts =>
    let r' := (r.push [t]).updateFinishState py 1
    if r'.finished then r' else acceptEach py r' ts

/-- What one token of the run decides, after the tokens before it. -/
def afterEach (py : Python) (r : Req) (ts : List ℤ) (j : ℕ) : Req :=
  (r.push (ts.take j)).updateFinishState py 1

lemma push_push (r : Req) (as bs : List ℤ) : (r.push as).push bs = r.push (as ++ bs) := by
  simp only [push, append_assoc]

/-- The first token that finishes the request is the last one accepted.  A token that does not
leaves the request as it is, so that the next one is looked at as if the run began with it. -/
lemma acceptEach_of_first (hm : 1 ≤ m) (hk : m ≤ ts.length)
    (hkeep : ∀ j, 1 ≤ j → j < m → afterEach py r ts j = r.push (ts.take j))
    (hopen : ∀ j, 1 ≤ j → j < m → (afterEach py r ts j).finished = false)
    (hfin : (afterEach py r ts m).finished = true) :
    acceptEach py r ts = afterEach py r ts m := by
  induction ts generalizing r m with
  | nil => simp only [length_nil] at hk; omega
  | cons t ts ih =>
    rw [acceptEach]
    by_cases h1 : m = 1
    · grind [afterEach]
    have hk1 := hkeep 1 le_rfl (by omega)
    have ho1 := hopen 1 le_rfl (by omega)
    rw [afterEach, take_succ_cons, take_zero] at hk1 ho1
    obtain ⟨m, rfl⟩ := Nat.exists_eq_add_of_lt (show 0 < m by omega)
    have hshift : ∀ j, afterEach py (r.push [t]) ts j = afterEach py r (t :: ts) (j + 1) := by
      intro j
      rw [afterEach, afterEach, push_push, take_succ_cons, singleton_append]
    rw [if_neg (by rw [ho1]; exact Bool.false_ne_true), hk1, ih (m := m) (by omega)
      (by simp only [length_cons] at hk; omega), hshift, Nat.zero_add]
    · grind [push_push]
    · grind
    · grind

/-- As long as nothing stops the request, one by one is the same as all together. -/
lemma acceptEach_of_open
    (hkeep : ∀ j, 1 ≤ j → j ≤ ts.length → afterEach py r ts j = r.push (ts.take j))
    (hr : r.finished = false) : acceptEach py r ts = r.push ts := by
  induction ts generalizing r with
  | nil =>
    rw [acceptEach, push, append_nil]
  | cons t ts ih =>
    have hk1 := hkeep 1 le_rfl (by simp)
    rw [afterEach, take_succ_cons, take_zero] at hk1
    rw [acceptEach]
    rw [hk1, if_neg (by rw [finished, push]; rw [finished] at hr; rw [hr]; exact Bool.false_ne_true),
      ih, push_push, singleton_append]
    · intro j hj hjk
      have := hkeep (j + 1) (by omega) (by simpa using hjk)
      rw [afterEach, push_push]
      exact this
    · exact hr

/-! ## A run looked at once -/

lemma Plain.push (hr : r.Plain) (ts : List ℤ) : (r.push ts).Plain :=
  ⟨hr.reason, hr.toFinish, hr.grammar, hr.regexes⟩

/-- The tokens of a run are in the vocabulary. -/
def InVocab (r : Req) (ts : List ℤ) : Prop := ∀ t ∈ ts, r.outOfVocab t = false

instance : Decidable (r.InVocab ts) := inferInstanceAs (Decidable (∀ t ∈ ts, _))

/-- What a run does, without regexes, grammar or pending abort: the first stop string of the list
that occurs decides, then tokens and length. -/
lemma acceptRun_plain (hr : r.Plain) (hv : r.InVocab ts) (hts : ts ≠ []) :
    acceptRun py r ts =
      match r.samplingParams.stopStrs.find? fun s => decide (s <:+: r.decode (r.window ts)) with
      | some s => capFinishedLenAtMaxNewTokens { r.push ts with
          finishedReason := some (.matchedStr s)
          finishedLen := some ((r.push ts).locateStrStopFinishedLen ts.length fun text =>
            decide (s <:+: text)) }
      | none => (r.push ts).finishByTokenOrLength ts := by
  rw [acceptRun, updateFinishState_plain (hr.push ts) (by rw [lastN_push hts]; exact hv),
    lastN_push hts]
  by_cases hs : r.samplingParams.stopStrs = []
  · have hs' : (r.push ts).samplingParams.stopStrs = [] := hs
    rw [hs, hs']
    rfl
  · rw [tailStr_push hts hs]
    rfl

/-- The first stop string of the list that occurs in the window decides. -/
lemma acceptRun_of_str {s : Text} (hr : r.Plain) (hv : r.InVocab ts) (hj : 1 ≤ j)
    (hk : j ≤ ts.length)
    (hs : (r.samplingParams.stopStrs.find? fun s => decide (s <:+: r.decode (r.window ts))) =
      some s)
    (hseen : s <:+: r.decode (r.window (ts.take j)))
    (hfirst : ∀ i, 1 ≤ i → i < j → ¬ s <:+: r.decode (r.window (ts.take i))) :
    (acceptRun py r ts).outcome =
      capped r.samplingParams.maxNewTokens (r.outputIds.length + j) .matchedStr := by
  have hts : ts ≠ [] := by rintro rfl; simp at hk; omega
  rw [acceptRun_plain hr hv hts, hs]
  rw [outcome_cap, locateStrStopFinishedLen_push hj hk (decide_eq_true hseen)
    fun i h1 h2 => decide_eq_false (hfirst i h1 h2)]
  rfl

lemma acceptRun_of_not_str (hr : r.Plain) (hv : r.InVocab ts) (hts : ts ≠ [])
    (hs : ∀ s ∈ r.samplingParams.stopStrs, ¬ s <:+: r.decode (r.window ts)) :
    acceptRun py r ts = (r.push ts).finishByTokenOrLength ts := by
  grind [acceptRun_plain]

/-- The `j`-th token of the run stops the request. -/
def tokenStops (r : Req) (ts : List ℤ) (j : ℕ) : Bool := (ts.take j).getLast?.any r.stopsAt

lemma tokenStops_succ (hj : j < ts.length) :
    r.tokenStops ts (j + 1) = r.stopsAt (ts.get ⟨j, hj⟩) := by
  rw [tokenStops, take_succ_eq_append_getElem hj, getLast?_concat]
  rfl

/-- No stop string occurs, and a stop token does. -/
lemma acceptRun_of_token (hr : r.Plain) (hv : r.InVocab ts)
    (hs : ∀ s ∈ r.samplingParams.stopStrs, ¬ s <:+: r.decode (r.window ts))
    (hj : 1 ≤ j) (hk : j ≤ ts.length) (hstop : r.tokenStops ts j = true)
    (hfirst : ∀ i, 1 ≤ i → i < j → r.tokenStops ts i = false) :
    (acceptRun py r ts).outcome =
      capped r.samplingParams.maxNewTokens (r.outputIds.length + j) .matchedToken := by
  have hts : ts ≠ [] := by rintro rfl; simp at hk; omega
  obtain ⟨i, rfl⟩ := Nat.exists_eq_add_of_le' hj
  rw [tokenStops_succ (by omega)] at hstop
  rw [acceptRun_of_not_str hr hv hts hs,
    finishByTokenOrLength_of_token (r := r.push ts) (by omega) hstop ?_, length_push,
    Nat.add_sub_cancel, Nat.add_assoc]
  · rfl
  · intro i' hi'
    have := hfirst (i' + 1) (by omega) (by omega)
    rwa [tokenStops_succ (by omega)] at this

lemma not_stopsAt_of_tokenStops (h : ∀ i, 1 ≤ i → i ≤ ts.length → r.tokenStops ts i = false) :
    ∀ t ∈ ts, r.stopsAt t = false := by
  intro t ht
  obtain ⟨i, hi, rfl⟩ := getElem_of_mem ht
  have := h (i + 1) (by omega) (by omega)
  rwa [tokenStops_succ hi] at this

/-- Nothing stops the run but the budget. -/
lemma acceptRun_of_length (hr : r.Plain) (hv : r.InVocab ts) (hts : ts ≠ [])
    (hs : ∀ s ∈ r.samplingParams.stopStrs, ¬ s <:+: r.decode (r.window ts))
    (ht : ∀ i, 1 ≤ i → i ≤ ts.length → r.tokenStops ts i = false)
    (hlen : r.samplingParams.maxNewTokens ≤ r.outputIds.length + ts.length) :
    (acceptRun py r ts).outcome = (some r.samplingParams.maxNewTokens, some .length) := by
  rw [acceptRun_of_not_str hr hv hts hs]
  exact finishByTokenOrLength_of_length (r := r.push ts) (not_stopsAt_of_tokenStops ht)
    (by rw [length_push]; exact hlen)

lemma acceptRun_of_none (hr : r.Plain) (hv : r.InVocab ts) (hts : ts ≠ [])
    (hs : ∀ s ∈ r.samplingParams.stopStrs, ¬ s <:+: r.decode (r.window ts))
    (ht : ∀ i, 1 ≤ i → i ≤ ts.length → r.tokenStops ts i = false)
    (hlen : r.outputIds.length + ts.length < r.samplingParams.maxNewTokens) :
    acceptRun py r ts = r.push ts := by
  rw [acceptRun_of_not_str hr hv hts hs]
  exact finishByTokenOrLength_of_none (r := r.push ts) hr.grammar (not_stopsAt_of_tokenStops ht)
    (by rw [length_push]; exact hlen)

/-! ## One token at a time -/

/-- The window when the `j`-th token has been appended. -/
def eachWindow (r : Req) (ts : List ℤ) (j : ℕ) : List ℤ :=
  (r.outputIds ++ ts.take j).drop (r.outputIds.length + j - r.maxLenTailStr)

/-- Some stop string is found when the `j`-th token has been appended. -/
def strStops (r : Req) (ts : List ℤ) (j : ℕ) : Bool :=
  r.samplingParams.stopStrs.any fun s => decide (s <:+: r.decode (r.eachWindow ts j))

/-- What the `j`-th token does, if none before it finished the request. -/
def verdict (r : Req) (ts : List ℤ) (j : ℕ) : Option FinishKind :=
  if r.strStops ts j then some .matchedStr
  else if r.tokenStops ts j then some .matchedToken
  else if r.samplingParams.maxNewTokens ≤ r.outputIds.length + j then some .length
  else none

/-- One by one the window moves along. -/
lemma window_push_single (hj : j < ts.length) :
    (r.push (ts.take j)).window [ts.get ⟨j, hj⟩] = r.eachWindow ts (j + 1) := by
  have hL := r.one_le_maxLenTailStr
  have hlen : (r.outputIds ++ ts.take j).length = r.outputIds.length + j := by
    grind
  have hL' : (r.push (ts.take j)).maxLenTailStr = r.maxLenTailStr := rfl
  have hids : (r.push (ts.take j)).outputIds = r.outputIds ++ ts.take j := rfl
  rw [window, eachWindow, take_succ_eq_append_getElem hj, ← append_assoc, hL', hids,
    hlen, ← Nat.add_assoc]
  exact (drop_append_of_le_length (by omega)).symm

lemma afterEach_eq (hj : j < ts.length) :
    afterEach py r ts (j + 1) = acceptRun py (r.push (ts.take j)) [ts.get ⟨j, hj⟩] := by
  rw [afterEach, acceptRun, push_push, take_succ_eq_append_getElem hj]
  rfl

lemma strStops_eq_false_iff (hj : j < ts.length) : r.strStops ts (j + 1) = false ↔
    ∀ s ∈ r.samplingParams.stopStrs,
      ¬ s <:+: r.decode ((r.push (ts.take j)).window [ts.get ⟨j, hj⟩]) := by
  rw [window_push_single, strStops, List.any_eq_false]
  simp only [decide_eq_true_eq]

lemma tokenStops_single {t : ℤ} : (r.push ts).tokenStops [t] 1 = r.stopsAt t := rfl

lemma length_push_take (hj : j ≤ ts.length) :
    (r.push (ts.take j)).outputIds.length = r.outputIds.length + j := by
  rw [length_push, length_take, min_eq_left hj]

/-- A token that nothing stops at. -/
lemma verdict_eq_none : r.verdict ts j = none ↔ r.strStops ts j = false ∧
    r.tokenStops ts j = false ∧ r.outputIds.length + j < r.samplingParams.maxNewTokens := by
  grind [verdict]

variable (hr : r.Plain) (hv : r.InVocab ts)

include hr hv

/-- A token that finishes the request is the last one that counts. -/
lemma outcome_afterEach {kind : FinishKind} (hj : 1 ≤ j) (hk : j ≤ ts.length)
    (hmax : r.outputIds.length + j ≤ r.samplingParams.maxNewTokens)
    (h : r.verdict ts j = some kind) :
    (afterEach py r ts j).outcome = (some (r.outputIds.length + j), some kind) := by
  obtain ⟨j, rfl⟩ := Nat.exists_eq_add_of_le' hj
  have hjk : j < ts.length := by omega
  have hr' := hr.push (ts.take j)
  have hv' : (r.push (ts.take j)).InVocab [ts.get ⟨j, hjk⟩] :=
    forall_mem_singleton.2 (hv _ (List.get_mem _ _))
  have hlen := length_push_take (r := r) hjk.le
  have hcap : ∀ kd, capped (r.push (ts.take j)).samplingParams.maxNewTokens
      ((r.push (ts.take j)).outputIds.length + 1) kd =
      (some (r.outputIds.length + (j + 1)), some kd) := by
    intro kd
    rw [hlen, capped, if_neg (not_lt.2 (by rw [Nat.add_assoc]; exact hmax)), Nat.add_assoc]
  rw [afterEach_eq hjk]
  rw [verdict] at h
  by_cases hs : r.strStops ts (j + 1) = true
  · rw [if_pos hs, some_inj] at h
    subst h
    rw [strStops, ← window_push_single hjk, List.any_eq_true] at hs
    obtain ⟨s, hmem, hin⟩ := hs
    cases hfind : r.samplingParams.stopStrs.find? fun s =>
        decide (s <:+: r.decode ((r.push (ts.take j)).window [ts.get ⟨j, hjk⟩])) with
    | none => exact absurd hin (find?_eq_none.1 hfind s hmem)
    | some s' =>
      have hin' := find?_some hfind
      rw [decide_eq_true_eq] at hin'
      rw [acceptRun_of_str hr' hv' le_rfl le_rfl hfind hin' fun i h1 h2 => by omega]
      exact hcap _
  · have hs' := (strStops_eq_false_iff hjk).1 (Bool.eq_false_iff.2 hs)
    rw [if_neg hs] at h
    by_cases ht : r.tokenStops ts (j + 1) = true
    · rw [if_pos ht, some_inj] at h
      subst h
      rw [acceptRun_of_token hr' hv' hs' le_rfl le_rfl
        (by rw [tokenStops_succ hjk] at ht; exact ht) fun i h1 h2 => by omega]
      exact hcap _
    · rw [if_neg ht] at h
      obtain ⟨hfull, heq⟩ := ite_none_right_eq_some.1 h
      cases heq
      rw [acceptRun_of_length hr' hv' (cons_ne_nil _ _) hs' ?_
        (by rw [hlen, length_singleton, Nat.add_assoc]; exact hfull)]
      · have hm : (r.push (ts.take j)).samplingParams.maxNewTokens = r.outputIds.length + (j + 1) :=
          le_antisymm hfull hmax
        rw [hm]
      · grind [tokenStops_single, tokenStops_succ]

/-- A token that does not finish the request is only appended. -/
lemma afterEach_of_none (hj : 1 ≤ j) (hk : j ≤ ts.length) (h : r.verdict ts j = none) :
    afterEach py r ts j = r.push (ts.take j) := by
  obtain ⟨j, rfl⟩ := Nat.exists_eq_add_of_le' hj
  have hjk : j < ts.length := by omega
  have hr' := hr.push (ts.take j)
  have hv' : (r.push (ts.take j)).InVocab [ts.get ⟨j, hjk⟩] :=
    forall_mem_singleton.2 (hv _ (List.get_mem _ _))
  obtain ⟨hs, ht, hlen⟩ := verdict_eq_none.1 h
  rw [afterEach_eq hjk, acceptRun_of_none hr' hv' (cons_ne_nil _ _)
    ((strStops_eq_false_iff hjk).1 hs) ?_
    (by rw [length_push_take hjk.le, length_singleton, Nat.add_assoc]; exact hlen),
    push_push, take_succ_eq_append_getElem hjk]
  · rfl
  · grind [tokenStops_single, tokenStops_succ]

/-- **One token at a time, the first token that does anything decides.** -/
theorem acceptEach_outcome {kind : FinishKind} (hm : 1 ≤ m) (hk : m ≤ ts.length)
    (hmax : r.outputIds.length < r.samplingParams.maxNewTokens)
    (hfirst : ∀ j, 1 ≤ j → j < m → r.verdict ts j = none) (h : r.verdict ts m = some kind) :
    (acceptEach py r ts).outcome = (some (r.outputIds.length + m), some kind) := by
  have hmax : r.outputIds.length + m ≤ r.samplingParams.maxNewTokens := by
    by_cases h1 : m = 1
    · omega
    · have := (verdict_eq_none.1 (hfirst (m - 1) (by omega) (by omega))).2.2
      omega
  have hout : (afterEach py r ts m).outcome = _ := outcome_afterEach hr hv hm hk hmax h
  have hkeep : ∀ j, 1 ≤ j → j < m → afterEach py r ts j = r.push (ts.take j) :=
    fun j h1 h2 => afterEach_of_none hr hv h1 (by omega) (hfirst j h1 h2)
  have hopen : ∀ j, 1 ≤ j → j < m → (afterEach py r ts j).finished = false := by
    intro j h1 h2
    rw [hkeep j h1 h2]
    exact isSome_eq_false_iff.2 (isNone_iff_eq_none.2 hr.reason)
  have hfin : (afterEach py r ts m).finished = true := by
    simp [finished_iff_outcome, hout]
  rw [acceptEach_of_first hm hk hkeep hopen hfin, hout]

lemma acceptEach_of_none (h : ∀ j, 1 ≤ j → j ≤ ts.length → r.verdict ts j = none) :
    acceptEach py r ts = r.push ts := by
  refine acceptEach_of_open (fun j h1 h2 => afterEach_of_none hr hv h1 h2 (h j h1 h2)) ?_
  rw [finished, hr.reason]
  rfl

end Req

end Sglang.Output
