import Sglang.Output.Accept

/-!
# A run of tokens against the same tokens one by one

A stop string is searched for in the last few tokens of the output.  When tokens come one at a time
the window moves with them (`eachWindow`), for a run it is made longer (`window`).  If every
occurrence of a stop string fits into the window, the two see the same strings
(`infix_window_iff`), and the comparison becomes one of positions: the run is cut where the first
stop string *of the list* is complete, the tokens one by one where anything stops the request.
-/

namespace Sglang.Output
open Lib List

namespace Req
variable {py : Python} {r : Req} {tok : ℤ → Text} {ts : List ℤ} {s : Text} {i j k : ℕ}

/-! ## The two windows -/

/-- Decoding a list of tokens concatenates the decoded tokens. -/
def Decodes (r : Req) (tok : ℤ → Text) : Prop := ∀ ids, r.decode ids = ids.flatMap tok

/-- Every occurrence of a stop string in the text of `ids` spans at most `stop_str_max_len`
tokens. -/
def StopsSpan (r : Req) (tok : ℤ → Text) (ids : List ℤ) : Prop :=
  ∀ s ∈ r.samplingParams.stopStrs, ∀ c, OccursAt s (ids.flatMap tok) c →
    ∃ a b, b ≤ a + r.samplingParams.stopStrMaxLen ∧ ((ids.take a).flatMap tok).length ≤ c ∧
      c + s.length ≤ ((ids.take b).flatMap tok).length

/-- The window of a run begins where that of its first token does. -/
lemma window_eq (ts : List ℤ) : r.window ts =
    (r.outputIds ++ ts).drop (r.outputIds.length + 1 - r.maxLenTailStr) := by
  grind [r.one_le_maxLenTailStr, window]

lemma take_output (ts : List ℤ) (j : ℕ) :
    (r.outputIds ++ ts).take (r.outputIds.length + j) = r.outputIds ++ ts.take j := by
  rw [take_length_add_append]

variable (hd : r.Decodes tok)

include hd

/-- What occurs in the window of a shorter run occurs in that of a longer one. -/
lemma infix_window_mono (hij : i ≤ j) (h : s <:+: r.decode (r.window (ts.take i))) :
    s <:+: r.decode (r.window (ts.take j)) := by
  obtain ⟨d, rfl⟩ := Nat.exists_eq_add_of_le hij
  refine h.trans (List.IsPrefix.isInfix ⟨((ts.drop i).take d).flatMap tok, ?_⟩)
  rw [hd, hd, ← flatMap_append, window, window, take_add, append_assoc]

/-- What a single token sees, the run sees. -/
lemma infix_window_of_each (hi : 1 ≤ i) (h : s <:+: r.decode (r.eachWindow ts i)) :
    s <:+: r.decode (r.window (ts.take i)) := by
  rw [hd, eachWindow] at h
  rw [window_eq, hd]
  exact infix_of_infix_drop h (by omega)

/-- The run sees a stop string exactly if one of its tokens would have. -/
lemma infix_window_iff (hspan : r.StopsSpan tok (r.outputIds ++ ts))
    (hs : s ∈ r.samplingParams.stopStrs) (hj : 1 ≤ j) :
    s <:+: r.decode (r.window (ts.take j)) ↔
      ∃ i, 1 ≤ i ∧ i ≤ j ∧ s <:+: r.decode (r.eachWindow ts i) := by
  constructor
  · intro h
    induction j, hj using Nat.le_induction with
    | base =>
      refine ⟨1, le_rfl, le_rfl, ?_⟩
      rwa [window_eq] at h
    | succ j hj ih =>
      by_cases hold : s <:+: r.decode (r.window (ts.take j))
      · grind
      -- the token just appended completes the string
      refine ⟨j + 1, by omega, le_rfl, ?_⟩
      have hL : r.samplingParams.stopStrMaxLen + 1 ≤ r.maxLenTailStr := le_max_left _ _
      rw [window_eq, hd, ← take_output] at h hold
      rw [eachWindow, hd, ← take_output]
      exact infix_drop_of_new (n := r.outputIds.length + j) (hspan s hs) h hold (by omega) (by omega)
  · grind [infix_window_mono, infix_window_of_each]

/-- No stop string in the window of the run, no stop string on the way. -/
lemma strStops_eq_false
    (h : ∀ s ∈ r.samplingParams.stopStrs, ¬ s <:+: r.decode (r.window (ts.take j)))
    (hi : 1 ≤ i) (hij : i ≤ j) : r.strStops ts i = false := by
  rw [strStops, any_eq_false]
  intro s hs
  rw [decide_eq_true_eq]
  exact fun hin => h s hs (infix_window_mono hd hij (infix_window_of_each hd hi hin))

omit hd

lemma strStops_of_isInfix (hs : s ∈ r.samplingParams.stopStrs)
    (h : s <:+: r.decode (r.eachWindow ts i)) : r.strStops ts i = true :=
  any_eq_true.2 ⟨s, hs, decide_eq_true h⟩

/-! ## Positions -/

lemma exists_first (p : ℕ → Prop) (h : ∃ j, 1 ≤ j ∧ j ≤ k ∧ p j) :
    ∃ m, 1 ≤ m ∧ m ≤ k ∧ p m ∧ ∀ j, 1 ≤ j → j < m → ¬ p j := by
  classical
  have hex : ∃ j, 1 ≤ j ∧ j ≤ k ∧ p j := h
  obtain ⟨h1, h2, h3⟩ := Nat.find_spec hex
  exact ⟨Nat.find hex, h1, h2, h3, fun j hj hlt hp => Nat.find_min hex hlt ⟨hj, by omega, hp⟩⟩

/-- The tokens one by one, when they use up the budget before anything else happens. -/
lemma acceptEach_of_length (hr : r.Plain) (hv : r.InVocab ts)
    (hmax : r.outputIds.length < r.samplingParams.maxNewTokens)
    (hlen : r.samplingParams.maxNewTokens ≤ r.outputIds.length + ts.length)
    (hs : ∀ j, 1 ≤ j → r.outputIds.length + j ≤ r.samplingParams.maxNewTokens →
      r.strStops ts j = false)
    (ht : ∀ j, 1 ≤ j → r.outputIds.length + j ≤ r.samplingParams.maxNewTokens →
      r.tokenStops ts j = false) :
    (acceptEach py r ts).outcome = (some r.samplingParams.maxNewTokens, some .length) := by
  obtain ⟨m, hm⟩ := Nat.exists_eq_add_of_lt hmax
  rw [add_assoc] at hm
  rw [acceptEach_outcome hr hv (m := m + 1) (by omega) (by omega) hmax ?_ ?_, hm]
  · intro j h1 h2
    exact verdict_eq_none.2 ⟨hs j h1 (by omega), ht j h1 (by omega), by omega⟩
  · grind [verdict]

/-- A stop string or a stop token on the way. -/
def stops (r : Req) (ts : List ℤ) (j : ℕ) : Prop :=
  (∃ s ∈ r.samplingParams.stopStrs, s <:+: r.decode (r.window (ts.take j))) ∨
    r.tokenStops ts j = true

/-- Among the stops within the budget, the first stop string of the list that occurs in the run is
complete before any other stop string or stop token comes. -/
def StopsInOrder (r : Req) (ts : List ℤ) : Prop :=
  ∀ s ∈ r.samplingParams.stopStrs.find? fun s => decide (s <:+: r.decode (r.window ts)),
    ∀ j, 1 ≤ j → j ≤ ts.length → r.outputIds.length + j ≤ r.samplingParams.maxNewTokens →
      ¬ s <:+: r.decode (r.window (ts.take j)) → ¬ r.stops ts j

variable (hr : r.Plain) (hv : r.InVocab ts)
  (hmax : r.outputIds.length < r.samplingParams.maxNewTokens)

include hr hv hmax

/-- Without a stop string in the window the first stop token or the budget decides for both. -/
lemma acceptRun_eq_acceptEach_of_not_str (hd : r.Decodes tok) (hts : ts ≠ [])
    (hs : ∀ s ∈ r.samplingParams.stopStrs, ¬ s <:+: r.decode (r.window ts)) :
    (acceptRun py r ts).outcome = (acceptEach py r ts).outcome := by
  have hstr : ∀ j, 1 ≤ j → j ≤ ts.length → r.strStops ts j = false := fun j h1 h2 =>
    strStops_eq_false hd (by rwa [take_length]) h1 h2
  by_cases htok : ∃ j, 1 ≤ j ∧ j ≤ ts.length ∧ r.tokenStops ts j = true
  · obtain ⟨m, h1, h2, hm, hfirst⟩ := exists_first _ htok
    have hfirst' : ∀ j, 1 ≤ j → j < m → r.tokenStops ts j = false := fun j h1 h2 =>
      Bool.eq_false_iff.2 (hfirst j h1 h2)
    rw [acceptRun_of_token hr hv hs h1 h2 hm hfirst', capped]
    by_cases hcap : r.samplingParams.maxNewTokens < r.outputIds.length + m
    · rw [if_pos hcap, acceptEach_of_length hr hv hmax (by omega)
        (fun j h1 h2 => hstr j h1 (by omega)) fun j h1 h2 => hfirst' j h1 (by omega)]
    · rw [if_neg hcap, acceptEach_outcome hr hv h1 h2 hmax ?_ ?_]
      · intro j hj1 hj2
        exact verdict_eq_none.2 ⟨hstr j hj1 (by omega), hfirst' j hj1 hj2, by omega⟩
      · rw [verdict, hstr m h1 h2, if_neg (by simp), if_pos hm]
  · push Not at htok
    have htok' : ∀ j, 1 ≤ j → j ≤ ts.length → r.tokenStops ts j = false := fun j h1 h2 =>
      Bool.eq_false_iff.2 (htok j h1 h2)
    by_cases hlen : r.samplingParams.maxNewTokens ≤ r.outputIds.length + ts.length
    · rw [acceptRun_of_length hr hv hts hs htok' hlen, acceptEach_of_length hr hv hmax hlen
        (fun j h1 h2 => hstr j h1 (by omega)) fun j h1 h2 => htok' j h1 (by omega)]
    · rw [acceptRun_of_none hr hv hts hs htok' (by omega), acceptEach_of_none hr hv
        fun j h1 h2 => verdict_eq_none.2 ⟨hstr j h1 h2, htok' j h1 h2, by omega⟩]

/-- A stop on the way finishes the tokens one by one at or before it, and not by the length. -/
lemma acceptEach_of_stops (hd : r.Decodes tok) (hspan : r.StopsSpan tok (r.outputIds ++ ts))
    (hj : 1 ≤ j) (hk : j ≤ ts.length)
    (hcap : r.outputIds.length + j ≤ r.samplingParams.maxNewTokens) (h : r.stops ts j) :
    ∃ m kind, 1 ≤ m ∧ m ≤ j ∧ (m = j → kind ≠ FinishKind.length) ∧
      (acceptEach py r ts).outcome = (some (r.outputIds.length + m), some kind) := by
  have hex : ∃ i, 1 ≤ i ∧ i ≤ j ∧ (r.strStops ts i = true ∨ r.tokenStops ts i = true) := by
    rcases h with ⟨s, hs, hin⟩ | htok
    · obtain ⟨i, h1, h2, hi⟩ := (infix_window_iff hd hspan hs hj).1 hin
      exact ⟨i, h1, h2, .inl (strStops_of_isInfix hs hi)⟩
    · exact ⟨j, hj, le_rfl, .inr htok⟩
  obtain ⟨m, h1, h2, hm, hfirst⟩ := exists_first _ hex
  have hnone : ∀ i, 1 ≤ i → i < m → r.verdict ts i = none := by
    intro i hi1 hi2
    have := hfirst i hi1 hi2
    rw [not_or] at this
    exact verdict_eq_none.2 ⟨Bool.eq_false_iff.2 this.1, Bool.eq_false_iff.2 this.2, by omega⟩
  by_cases hstr : r.strStops ts m = true
  · exact ⟨m, .matchedStr, h1, h2, fun _ => by decide,
      acceptEach_outcome hr hv h1 (by omega) hmax hnone (by rw [verdict, if_pos hstr])⟩
  · exact ⟨m, .matchedToken, h1, h2, fun _ => by decide,
      acceptEach_outcome hr hv h1 (by omega) hmax hnone
        (by rw [verdict, if_neg hstr, if_pos (hm.resolve_left hstr)])⟩

/-- **A run is accepted as its tokens one by one are exactly if the stops come in order.** -/
theorem acceptRun_outcome_eq_iff (hd : r.Decodes tok)
    (hspan : r.StopsSpan tok (r.outputIds ++ ts)) (hts : ts ≠ []) :
    (acceptRun py r ts).outcome = (acceptEach py r ts).outcome ↔ r.StopsInOrder ts := by
  have hk := length_pos_iff.2 hts
  cases hfind : r.samplingParams.stopStrs.find? fun s => decide (s <:+: r.decode (r.window ts)) with
  | none =>
    refine iff_of_true (acceptRun_eq_acceptEach_of_not_str hr hv hmax hd hts fun s hs => ?_) ?_
    · grind
    · intro s hs
      rw [hfind] at hs
      cases hs
  | some s =>
    have hin := find?_some hfind
    rw [decide_eq_true_eq] at hin
    obtain ⟨f, h1, h2, hf, hfirst⟩ := exists_first (k := ts.length)
      (fun j => s <:+: r.decode (r.window (ts.take j)))
      ⟨ts.length, hk, le_rfl, by rwa [take_length]⟩
    rw [acceptRun_of_str hr hv h1 h2 hfind hf hfirst]
    constructor
    · intro heq s' hs' j hj1 hj2 hcap hnot hstop
      rw [hfind, Option.mem_some_iff] at hs'
      subst hs'
      have hjf : j < f := not_le.1 fun hfj => hnot (infix_window_mono hd hfj hf)
      obtain ⟨m, kind, hm1, hm2, hkind, hout⟩ :=
        acceptEach_of_stops hr hv hmax hd hspan hj1 hj2 hcap hstop
      rw [hout, capped] at heq
      split at heq
      · grind
      · grind
    · intro horder
      have hno : ∀ j, 1 ≤ j → j < f → r.outputIds.length + j ≤ r.samplingParams.maxNewTokens →
          r.strStops ts j = false ∧ r.tokenStops ts j = false := by
        intro j hj1 hj2 hcap
        have := horder s (by rw [hfind]; rfl) j hj1 (by omega) hcap (hfirst j hj1 hj2)
        rw [stops, not_or, Bool.not_eq_true] at this
        push Not at this
        exact ⟨strStops_eq_false hd this.1 hj1 le_rfl, this.2⟩
      rw [capped]
      split
      · rename_i hcap
        rw [acceptEach_of_length hr hv hmax (by omega)
          (fun j hj1 hj2 => (hno j hj1 (by omega) hj2).1)
          fun j hj1 hj2 => (hno j hj1 (by omega) hj2).2]
      · rename_i hcap
        rw [acceptEach_outcome hr hv h1 h2 hmax ?_ ?_]
        · intro j hj1 hj2
          obtain ⟨ha, hb⟩ := hno j hj1 hj2 (by omega)
          exact verdict_eq_none.2 ⟨ha, hb, by omega⟩
        · grind [infix_window_iff, verdict, strStops_of_isInfix]

omit hr hv hmax

/-! ## Two stop strings, one token each -/

/-- The tokens `1` and `2` are the letters `a` and `b`. -/
def letterTok (t : ℤ) : Text := if t = 1 then ['a'] else if t = 2 then ['b'] else ['c']

/-- Patterns are never searched for. -/
def noRegex : Python := ⟨fun _ _ => .ok false, id⟩

/-- A request with the stop strings `b` and `a`, in this order. -/
def twoStops : Req where
  samplingParams := ⟨10, [['b'], ['a']], 1, [], 0, [], false, false, none⟩
  tokenizer := some ⟨fun _ => [], fun ids => ids.flatMap letterTok, none, []⟩
  eosTokenIds := []
  vocabSize := some 4
  grammar := none
  outputIds := []
  decodedText := []
  toFinish := none
  finishedReason := none
  finishedLen := none
  tokenizer_of_stops := fun _ h => by cases h
  decodedText_nil := no_text

lemma twoStops_plain : twoStops.Plain := ⟨rfl, rfl, rfl, rfl⟩

lemma twoStops_span (t t' : ℤ) :
    twoStops.StopsSpan letterTok (twoStops.outputIds ++ [t, t']) := by
  have hlen : ∀ t, (letterTok t).length = 1 := by
    grind [letterTok]
  intro s hs c hc
  have hs1 : s.length = 1 := by
    simp only [twoStops, mem_cons, not_mem_nil, or_false] at hs
    rcases hs with rfl | rfl <;> rfl
  have hc1 := hc.1
  simp only [twoStops, nil_append, flatMap_cons, flatMap_nil, append_nil,
    length_append, hlen, hs1] at hc1
  have hc1 : c ≤ 1 := by omega
  rw [hs1]
  refine ⟨c, c + 1, le_rfl, ?_⟩
  interval_cases c <;> simp [twoStops, hlen]

/-- The run `a b` is cut after `b`, its tokens one by one after `a`. -/
theorem acceptRun_ne_acceptEach :
    twoStops.Plain ∧ twoStops.Decodes letterTok ∧ twoStops.InVocab [1, 2] ∧
      twoStops.StopsSpan letterTok (twoStops.outputIds ++ [1, 2]) ∧
      (acceptRun noRegex twoStops [1, 2]).outcome = (some 2, some .matchedStr) ∧
      (acceptEach noRegex twoStops [1, 2]).outcome = (some 1, some .matchedStr) :=
  ⟨twoStops_plain, fun _ => rfl, by decide, twoStops_span 1 2, by decide +kernel,
    by decide +kernel⟩

theorem acceptRun_eq_acceptEach_of_order : twoStops.StopsInOrder [3, 1] ∧
    (acceptRun noRegex twoStops [3, 1]).outcome = (acceptEach noRegex twoStops [3, 1]).outcome := by
  have horder : twoStops.StopsInOrder [3, 1] := by
    intro s hs j h1 h2 _ hnot
    have hs' : s = ['a'] := by
      have : twoStops.samplingParams.stopStrs.find?
          (fun s => decide (s <:+: twoStops.decode (twoStops.window [3, 1]))) = some ['a'] := by
        decide +kernel
      rw [this, Option.mem_some_iff] at hs
      exact hs.symm
    subst hs'
    simp only [length_cons, length_nil] at h2
    interval_cases j
    · rw [stops]
      decide +kernel
    · exact absurd (by decide +kernel) hnot
  exact ⟨horder, (acceptRun_outcome_eq_iff twoStops_plain (by decide) (by decide) (fun _ => rfl)
    (twoStops_span 3 1) (by decide)).2 horder⟩

end Req
end Sglang.Output
