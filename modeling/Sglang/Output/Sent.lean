import Sglang.Output.OneByOne
import Sglang.Output.Stream

/-!
# Stop strings and the text that is sent

A request with one stop string is served token by token.  The messages before the last are those of
`messagesBefore`, whatever the detokenizer makes of them (`serve_eq`).  A streaming request is not
sent while its text may be in the middle of the stop string, so that what has been sent ends before
the stop string begins (`length_le_of_shouldOutput`); a request that is not streaming is sent at the
forced interval without such a test.
-/

namespace Sglang.Output
open Lib Detokenizer List Option StreamReq Req

/-! ## One token -/

namespace Req
variable {py : Python} {r : Req} {w : Text} {t : ℤ}

lemma locateStrStopFinishedLen_one (matched : Text → Bool) :
    r.locateStrStopFinishedLen 1 matched = r.outputIds.length := by
  unfold locateStrStopFinishedLen
  dsimp only
  rw [show ∀ n, n - max 1 (n + 1 - 1) = 0 by omega]
  rfl

/-- What one token may do to a request with the stop string `w`. -/
inductive OneStep (r : Req) (w : Text) : Req → Prop
  | str : w <:+: r.tailStr 1 → r.outputIds.length ≤ r.samplingParams.maxNewTokens →
      OneStep r w { r with
        finishedReason := some (.matchedStr w), finishedLen := some r.outputIds.length }
  | length : r.samplingParams.maxNewTokens ≤ r.outputIds.length →
      OneStep r w { r with
        finishedReason := some (.length r.samplingParams.maxNewTokens)
        finishedLen := some r.samplingParams.maxNewTokens }
  | goOn : ¬ w <:+: r.tailStr 1 → r.outputIds.length < r.samplingParams.maxNewTokens → OneStep r w r
  | other {r' : Req} {reason : FinishReason} : r'.finishedReason = some reason →
      reason.kind ≠ .matchedStr → reason.kind ≠ .length → OneStep r w r'

/-- A stop at the last token, with the cap. -/
lemma OneStep.of_cap (reason : FinishReason) (hstr : ∀ s, reason = .matchedStr s → s = w)
    (hlen : reason.kind ≠ .length) (hw : reason.kind = .matchedStr → w <:+: r.tailStr 1)
    {n : ℕ} (hn : n = r.outputIds.length) :
    OneStep r w (capFinishedLenAtMaxNewTokens
      { r with finishedReason := some reason, finishedLen := some n }) := by
  subst hn
  unfold capFinishedLenAtMaxNewTokens
  dsimp only
  split
  · next h => exact .length h.le
  · next h =>
    cases reason with
    | matchedStr s =>
      obtain rfl := hstr s rfl
      exact .str (hw rfl) (not_lt.1 h)
    | length n => exact absurd rfl hlen
    | _ => exact .other rfl (fun h => by cases h) fun h => by cases h

/-- A regex that fails aborts the request, one that matches stops it. -/
lemma checkStopRegexes_cases (tail : Text) (regexes : List Text) :
    checkStopRegexes py r 1 tail regexes = (r, false) ∨
      (∃ m c e, checkStopRegexes py r 1 tail regexes =
        ({ r with finishedReason := some (.abort m c e) }, false)) ∨
      ∃ x, checkStopRegexes py r 1 tail regexes =
        ({ r with finishedReason := some (.matchedRegex x)
                  finishedLen := some r.outputIds.length }, true) := by
  induction regexes with
  | nil => exact .inl rfl
  | cons x xs ih =>
    rw [checkStopRegexes]
    split
    · exact .inr (.inl ⟨_, _, _, rfl⟩)
    · exact .inr (.inr ⟨x, by rw [locateStrStopFinishedLen_one]⟩)
    · exact ih

/-- The ways in which a token or the length can finish a request. -/
lemma finishByTokenOrLength_cases {ids : List ℤ} (hids : ids.length ≤ r.outputIds.length)
    (hne : r.outputIds ≠ []) :
    (r.finishByTokenOrLength ids = { r with
        finishedReason := some (.length r.samplingParams.maxNewTokens)
        finishedLen := some r.samplingParams.maxNewTokens } ∧
      r.samplingParams.maxNewTokens ≤ r.outputIds.length) ∨
    (∃ t, (r.finishByTokenOrLength ids).finishedReason = some (.matchedToken t)) ∨
    (r.finishByTokenOrLength ids = r ∧ r.outputIds.length < r.samplingParams.maxNewTokens) := by
  rw [finishByTokenOrLength]
  cases hc : r.checkTokenBasedFinish ids with
  | some r' =>
    rw [checkTokenBasedFinish] at hc
    split at hc
    · cases hc
    obtain ⟨p, hp, rfl⟩ := map_eq_some_iff.1 hc
    have hlt := snd_lt_of_mem_zipIdx (mem_of_find?_eq_some hp)
    unfold capFinishedLenAtMaxNewTokens
    dsimp only
    split
    · exact .inl ⟨rfl, by omega⟩
    · exact .inr (.inl ⟨p.1, rfl⟩)
  | none =>
    dsimp only
    split
    · next h => exact .inl ⟨rfl, h⟩
    · next h =>
      split
      · exact .inr (.inl ⟨_, by rw [getLast?_eq_some_getLast hne]; rfl⟩)
      · exact .inr (.inr ⟨rfl, not_le.1 h⟩)

/-- The stop string is looked for first. -/
lemma checkStrBasedFinish_of_isInfix (hstop : r.samplingParams.stopStrs = [w])
    (hw : w <:+: r.tailStr 1) : r.checkStrBasedFinish py 1 =
      ({ r with finishedReason := some (.matchedStr w)
                finishedLen := some r.outputIds.length }, true) := by
  rw [checkStrBasedFinish, checkStopStrs_eq, hstop, find?_cons_of_pos (by simpa using hw),
    map_some, locateStrStopFinishedLen_one]

lemma checkStrBasedFinish_of_not_isInfix (hstop : r.samplingParams.stopStrs = [w])
    (hw : ¬ w <:+: r.tailStr 1) : r.checkStrBasedFinish py 1 =
      r.checkStopRegexes py 1 (r.tailStr 1) r.samplingParams.stopRegexStrs := by
  rw [checkStrBasedFinish, checkStopStrs_eq, hstop, find?_cons_of_neg (by simpa using hw),
    find?_nil, map_none]

/-- **What one token may do.** -/
theorem updateFinishState_one (hreason : r.finishedReason = none) (hto : r.toFinish = none)
    (hstop : r.samplingParams.stopStrs = [w]) (hlast : lastN 1 r.outputIds = [t])
    (hv : r.outOfVocab t = false) : OneStep r w (r.updateFinishState py 1) := by
  have hne : r.outputIds ≠ [] := by
    rintro h
    rw [h] at hlast
    cases hlast
  have hpos : [t].length ≤ r.outputIds.length := length_pos_iff.2 hne
  rw [updateFinishState_eq hreason hto (by rw [hlast]; simpa using hv), hlast]
  by_cases hw : w <:+: r.tailStr 1
  · rw [checkStrBasedFinish_of_isInfix hstop hw]
    exact OneStep.of_cap (.matchedStr w) (fun s h => (FinishReason.matchedStr.inj h).symm)
      (fun h => by cases h) (fun _ => hw) rfl
  · rw [checkStrBasedFinish_of_not_isInfix hstop hw]
    rcases checkStopRegexes_cases (r.tailStr 1) r.samplingParams.stopRegexStrs with
      h | ⟨m, c, e, h⟩ | ⟨x, h⟩ <;> rw [h]
    · show OneStep r w (r.finishByTokenOrLength [t])
      rcases finishByTokenOrLength_cases hpos hne with ⟨heq, hle⟩ | ⟨t, ht⟩ | ⟨heq, hlt⟩
      · rw [heq]
        exact .length hle
      · exact .other ht (fun h => by cases h) fun h => by cases h
      · rw [heq]
        exact .goOn hw hlt
    · set r' := { r with finishedReason := some (.abort m c e) } with hr'
      show OneStep r w (r'.finishByTokenOrLength [t])
      rcases finishByTokenOrLength_cases (r := r') hpos hne with ⟨heq, hle⟩ | ⟨t, ht⟩ | ⟨heq, hlt⟩
      · rw [heq]
        exact .length hle
      · exact .other ht (fun h => by cases h) fun h => by cases h
      · rw [heq]
        exact .other rfl (fun h => by cases h) fun h => by cases h
    · exact OneStep.of_cap (.matchedRegex x) (fun s h => by cases h) (fun h => by cases h)
        (fun h => by cases h) rfl

end Req

/-! ## Sending -/

/-- The tokens of the messages that are sent while the tokens `ts`, none of which finishes the
request, are accepted; `buf` has not been sent before. -/
def messagesBefore (cfg : StreamConfig) (stream : Bool) : Req → List ℤ → List ℤ → List (List ℤ)
  | _, _, [] => []
  | r, buf, t :: ts =>
    if (r.push [t]).shouldOutput cfg stream then
      (buf ++ [t]) :: messagesBefore cfg stream (r.push [t]) [] ts
    else messagesBefore cfg stream (r.push [t]) (buf ++ [t]) ts

/-- The output tokens `sent` have been sent, and the next message begins with `surr`. -/
inductive Sent (r : StreamReq) : List ℤ → List ℤ → Prop
  | nothing : r.offsets = none → r.sendDecodeIdOffset = 0 →
      Sent r [] (surrIds r.originInputIdsUnpadded)
  | upTo {sent : List ℤ} :
      r.offsets = some (r.originInputIdsUnpadded.length - 5, r.originInputIdsUnpadded.length) →
      r.surrAndDecodeIds = surrIds r.originInputIdsUnpadded ++ sent →
      r.curDecodeIdsLen = sent.length →
      r.sendDecodeIdOffset = (surrIds r.originInputIdsUnpadded ++ sent).length → Sent r sent []

def StreamReq.channel (r : StreamReq) : Channel :=
  ⟨r.rid, (surrIds r.originInputIdsUnpadded).length, r.samplingParams.noStopTrim⟩

section
variable {r : StreamReq} {sent surr : List ℤ}

lemma length_surrIds (prompt : List ℤ) :
    (surrIds prompt).length = prompt.length - (prompt.length - 5) := length_drop

/-- A message brings what has not been sent. -/
lemma Sent.send_item (h : Sent r sent surr) :
    r.send.2 =
      r.channel.item (surr ++ r.outputIdsThroughStop.drop sent.length) r.finishedReason := by
  have hdec := r.decodedText_nil
  unfold send initIncrementalDetokenize
  cases h with
  | nothing hoff hsend =>
    simp only [hoff, hsend, hdec, channel, Channel.item, length_surrIds, drop_zero, length_nil]
    rfl
  | upTo hoff hids hcur hsend =>
    grind [channel, Channel.item, length_surrIds]

/-- A message brings everything that was not sent before. -/
lemma Sent.send (h : Sent r sent surr) (hpre : sent <+: r.outputIdsThroughStop) :
    Sent r.send.1 r.outputIdsThroughStop [] := by
  unfold StreamReq.send StreamReq.initIncrementalDetokenize
  cases h with
  | nothing hoff hsend =>
    simp only [hoff]
    exact .upTo rfl rfl rfl rfl
  | upTo hoff hids hcur hsend =>
    obtain ⟨v, hv⟩ := hpre
    simp only [hoff, hids, hcur]
    refine .upTo rfl ?_ rfl ?_
    · rw [← hv, drop_left, append_assoc]
    · rw [← hv, drop_left, append_assoc]

lemma send_toReq (r : StreamReq) : r.send.1.toReq = r.toReq ∧ r.send.1.stream = r.stream ∧
    r.send.1.channel = r.channel := by
  unfold send initIncrementalDetokenize
  cases r.offsets with
  | none => exact ⟨rfl, rfl, rfl⟩
  | some p => exact ⟨rfl, rfl, rfl⟩

lemma Sent.congr {r' : StreamReq} (h : Sent r sent surr) (h1 : r'.offsets = r.offsets)
    (h2 : r'.sendDecodeIdOffset = r.sendDecodeIdOffset)
    (h3 : r'.surrAndDecodeIds = r.surrAndDecodeIds) (h4 : r'.curDecodeIdsLen = r.curDecodeIdsLen)
    (h5 : r'.originInputIdsUnpadded = r.originInputIdsUnpadded) : Sent r' sent surr := by
  cases h with
  | nothing hoff hsend =>
    rw [← h5]
    exact .nothing (h1.trans hoff) (h2.trans hsend)
  | upTo hoff hids hcur hsend =>
    rw [← h5] at hoff hids hsend
    exact .upTo (h1.trans hoff) (h3.trans hids) (h4.trans hcur) (h2.trans hsend)

end

section
variable {py : Python} {cfg : StreamConfig} {d : Detokenizer} {w : Text} {reason : FinishReason}

/-- What is known when a request has been served to its end: the text is what the detokenizer makes
of the messages, and the stop string was in none of the tails before. -/
structure Served (py : Python) (cfg : StreamConfig) (d : Detokenizer) (w : Text)
    (reason : FinishReason) (r : StreamReq) (status : Option DecodeStatus)
    (sent surr buf ts : List ℤ) : Prop where
  ne : ts ≠ []
  budget : ts.length ≤ 1 ∨ r.outputIds.length + (ts.length - 1) < r.samplingParams.maxNewTokens
  out : (serve py cfg d r status ts).2.outputIdsThroughStop =
    (r.outputIds ++ ts).take r.samplingParams.maxNewTokens
  text : (serve py cfg d r status ts).1 =
    let ms := messagesBefore cfg r.stream r.toReq buf ts.dropLast
    d.decodeItems status (r.channel.messages reason
      (((r.outputIds ++ ts).take r.samplingParams.maxNewTokens).drop
        (sent.length + ms.flatten.length)) surr ms)
  before : ∀ j, 1 ≤ j → j < ts.length → ¬ w <:+: (r.toReq.push (ts.take j)).tailStr 1
  stop : ∀ s, reason = .matchedStr s → s = w ∧ w <:+: (r.toReq.push ts).tailStr 1 ∧
      r.outputIds.length + ts.length ≤ r.samplingParams.maxNewTokens

section
variable {r : StreamReq} {status : Option DecodeStatus} {t : ℤ} {ts : List ℤ}

lemma serve_of_finished (h : (r.acceptToken py t).finished = true) :
    serve py cfg d r status (t :: ts) =
      ((d.decodeItem status (r.acceptToken py t).markFinished.send.2).1,
        (r.acceptToken py t).markFinished.send.1) := by
  simp only [serve, accept, if_pos h]
  rfl

/-- The request goes on and the message is sent. -/
lemma serve_of_send (h : (r.acceptToken py t).finished = false)
    (hs : (r.acceptToken py t).toReq.shouldOutput cfg (r.acceptToken py t).stream = true) :
    serve py cfg d r status (t :: ts) = let out := d.decodeItem status (r.acceptToken py t).send.2
      let rest := serve py cfg d (r.acceptToken py t).send.1 out.2 ts
      (out.1 ++ rest.1, rest.2) := by
  have h' : ¬ (r.acceptToken py t).finished = true := by rw [h]; exact Bool.false_ne_true
  simp only [serve, accept, if_neg h', if_pos hs]
  rfl

/-- The request goes on and its tokens are kept for a later message. -/
lemma serve_of_hold (h : (r.acceptToken py t).finished = false)
    (hs : ¬ (r.acceptToken py t).toReq.shouldOutput cfg (r.acceptToken py t).stream = true) :
    serve py cfg d r status (t :: ts) = serve py cfg d (r.acceptToken py t) status ts := by
  have h' : ¬ (r.acceptToken py t).finished = true := by rw [h]; exact Bool.false_ne_true
  simp only [serve, accept, if_neg h', if_neg hs]
  rfl

end

variable {r : StreamReq} {status : Option DecodeStatus} {sent surr buf ts : List ℤ}

/-- A token that finishes the request. -/
lemma served_of_finished {t : ℤ} {n : ℕ} (hsent : Sent r sent surr)
    (hupd : (r.toReq.push [t]).updateFinishState py 1 =
      { r.toReq.push [t] with finishedReason := some reason, finishedLen := some n })
    (hn : (r.outputIds ++ [t]).take n = (r.outputIds ++ [t]).take r.samplingParams.maxNewTokens)
    (hstr : ∀ s, reason = .matchedStr s → s = w ∧ w <:+: (r.toReq.push [t]).tailStr 1 ∧
      r.outputIds.length + 1 ≤ r.samplingParams.maxNewTokens)
    (hall : (serve py cfg d r status (t :: ts)).2.outputIds = r.outputIds ++ t :: ts) :
    Served py cfg d w reason r status sent surr buf (t :: ts) := by
  have hacc : r.acceptToken py t = { r with toReq :=
      { r.toReq.push [t] with finishedReason := some reason, finishedLen := some n } } := by
    rw [acceptToken, hupd]
  have hfin : (r.acceptToken py t).finished = true := by rw [hacc]; rfl
  set r' := (r.acceptToken py t).markFinished with hr'
  have hids : r'.outputIds = r.outputIds ++ [t] := by rw [hr', hacc]; rfl
  have hthrough : r'.outputIdsThroughStop = (r.outputIds ++ [t]).take n := by
    rw [hr', hacc]
    rfl
  have hser : serve py cfg d r status (t :: ts) = _ := serve_of_finished hfin
  have hreq := send_toReq r'
  obtain rfl : ts = [] := by
    rw [hser] at hall
    rw [hreq.1, hids, append_cancel_left_eq] at hall
    exact (List.cons.inj hall).2.symm
  have hsent' : Sent r' sent surr := hsent.congr (by rw [hr', hacc]; rfl) (by rw [hr', hacc]; rfl)
    (by rw [hr', hacc]; rfl) (by rw [hr', hacc]; rfl) (by rw [hr', hacc]; rfl)
  have hchan : r'.channel = r.channel := by rw [hr', hacc]; rfl
  have hfr : r'.finishedReason = some reason := by rw [hr', hacc]; rfl
  refine ⟨cons_ne_nil _ _, .inl le_rfl, ?_, ?_, ?_, hstr⟩
  · rw [hser]
    rw [hreq.1, hthrough, hn]
  · rw [hser]
    simp only [dropLast_singleton, messagesBefore, flatten_nil, length_nil,
      add_zero, Channel.messages, decodeItems, append_nil]
    rw [hsent'.send_item, hchan, hfr, hthrough, hn]
  · intro j h1 h2
    simp only [length_singleton] at h2
    omega

/-- A token that does not finish the request.  What is left to show is the text. -/
lemma Served.cons {r' : StreamReq} {status' : Option DecodeStatus} {sent' surr' buf' : List ℤ}
    {t : ℤ} (h : Served py cfg d w reason r' status' sent' surr' buf' ts)
    (hreq : r'.toReq = r.toReq.push [t]) (hw : ¬ w <:+: (r.toReq.push [t]).tailStr 1)
    (hlt : r.outputIds.length + 1 < r.samplingParams.maxNewTokens)
    (hser : (serve py cfg d r status (t :: ts)).2 = (serve py cfg d r' status' ts).2)
    (htext : (serve py cfg d r status (t :: ts)).1 =
      let ms := messagesBefore cfg r.stream r.toReq buf (t :: ts.dropLast)
      d.decodeItems status (r.channel.messages reason
        (((r.outputIds ++ t :: ts).take r.samplingParams.maxNewTokens).drop
          (sent.length + ms.flatten.length)) surr ms)) :
    Served py cfg d w reason r status sent surr buf (t :: ts) := by
  have hids : r'.outputIds = r.outputIds ++ [t] := by rw [hreq]; rfl
  have hmax : r'.samplingParams = r.samplingParams := by rw [hreq]; rfl
  have hbudget := h.budget
  have hstop := h.stop
  rw [hids, hmax, length_append, length_singleton] at hbudget hstop
  refine ⟨cons_ne_nil _ _, .inr ?_, ?_, ?_, ?_, ?_⟩
  · rw [length_cons]
    omega
  · rw [hser, h.out, hids, hmax, append_assoc, singleton_append]
  · rw [dropLast_cons_of_ne_nil h.ne]
    exact htext
  · intro j h1 h2
    obtain ⟨j, rfl⟩ := Nat.exists_eq_add_of_le' h1
    rw [length_cons] at h2
    by_cases h0 : j = 0
    · subst h0
      exact hw
    · have hb := h.before j (by omega) (by omega)
      rwa [hreq, push_push] at hb
  · intro s hs
    obtain ⟨hsw, htail, hle⟩ := hstop s hs
    rw [hreq, push_push] at htail
    exact ⟨hsw, htail, by rw [length_cons]; omega⟩

section
variable {t : ℤ} (hopen : r.finishedReason = none)
  (hacc : r.acceptToken py t = { r with toReq := r.toReq.push [t] })
  (hw : ¬ w <:+: (r.toReq.push [t]).tailStr 1)
  (hlt : r.outputIds.length + 1 < r.samplingParams.maxNewTokens)

include hopen hacc

lemma not_finished_of_goOn : (r.acceptToken py t).finished = false := by
  rw [hacc]
  exact isSome_eq_false_iff.2 (isNone_iff_eq_none.2 hopen)

include hw hlt

/-- A token with which a message is due. -/
lemma served_of_send (hs : (r.toReq.push [t]).shouldOutput cfg r.stream = true)
    (hitem : (r.acceptToken py t).send.2 = r.channel.item (surr ++ (buf ++ [t])) none)
    (h : Served py cfg d w reason (r.acceptToken py t).send.1
      (d.decodeItem status (r.acceptToken py t).send.2).2 (sent ++ (buf ++ [t])) [] [] ts) :
    Served py cfg d w reason r status sent surr buf (t :: ts) := by
  have hser : serve py cfg d r status (t :: ts) = _ :=
    serve_of_send (not_finished_of_goOn hopen hacc) (by rw [hacc]; exact hs)
  obtain ⟨hreq, hstream, hchan⟩ := send_toReq (r.acceptToken py t)
  rw [hitem] at h hser
  generalize (r.acceptToken py t).send.1 = r' at h hser hreq hstream hchan
  rw [hacc] at hreq hstream hchan
  refine h.cons hreq hw hlt (by rw [hser]) ?_
  rw [hser, messagesBefore, if_pos hs]
  show _ ++ (serve py cfg d r' _ ts).1 = _
  rw [h.text, hreq, hstream, hchan]
  dsimp only
  conv_rhs => rw [Channel.messages, decodeItems]
  simp only [show (r.toReq.push [t]).outputIds ++ ts = r.outputIds ++ t :: ts from
    append_assoc _ _ _, flatten_cons, length_append, add_assoc]
  rfl

/-- A token with which no message is due. -/
lemma served_of_hold (hs : ¬ (r.toReq.push [t]).shouldOutput cfg r.stream = true)
    (h : Served py cfg d w reason (r.acceptToken py t) status sent surr (buf ++ [t]) ts) :
    Served py cfg d w reason r status sent surr buf (t :: ts) := by
  have hser : serve py cfg d r status (t :: ts) = _ :=
    serve_of_hold (not_finished_of_goOn hopen hacc) (by rw [hacc]; exact hs)
  have hreq : (r.acceptToken py t).toReq = r.toReq.push [t] := by rw [hacc]
  have hstream : (r.acceptToken py t).stream = r.stream := by rw [hacc]
  have hchan : (r.acceptToken py t).channel = r.channel := by rw [hacc]; rfl
  refine h.cons hreq hw hlt (by rw [hser]) ?_
  rw [hser, messagesBefore, if_neg hs, h.text, hreq, hstream, hchan,
    show (r.toReq.push [t]).outputIds ++ ts = r.outputIds ++ t :: ts from append_assoc _ _ _]
  rfl

end

/-- A request that finishes on its stop string or by length was served as `Served` says. -/
lemma serve_served (hopen : r.finishedReason = none) (hto : r.toFinish = none)
    (hfl : r.finishedLen = none) (hstop : r.samplingParams.stopStrs = [w])
    (hv : ∀ t ∈ ts, r.outOfVocab t = false) (hsent : Sent r sent surr)
    (hout : r.outputIds = sent ++ buf)
    (hreason : (serve py cfg d r status ts).2.finishedReason = some reason)
    (hkind : reason.kind = .matchedStr ∨ reason.kind = .length)
    (hall : (serve py cfg d r status ts).2.outputIds = r.outputIds ++ ts) :
    Served py cfg d w reason r status sent surr buf ts := by
  induction ts generalizing r status sent surr buf with
  | nil =>
    simp_all [serve]
  | cons t ts ih =>
    have hlast : lastN 1 (r.toReq.push [t]).outputIds = [t] :=
      lastN_push (r := r.toReq) (cons_ne_nil _ _)
    have hlen : (r.toReq.push [t]).outputIds.length = r.outputIds.length + 1 := length_push
    have hstep : Req.OneStep (r.toReq.push [t]) w ((r.toReq.push [t]).updateFinishState py 1) :=
      Req.updateFinishState_one hopen hto hstop hlast (hv t mem_cons_self)
    generalize hx : (r.toReq.push [t]).updateFinishState py 1 = x at hstep
    have hacc : r.acceptToken py t = { r with toReq := x } := by rw [acceptToken, hx]
    have hfinal : ∀ rs, x.finishedReason = some rs → rs = reason := by
      intro rs hrs
      have hfin : (r.acceptToken py t).finished = true := by
        rw [hacc]
        exact isSome_iff_exists.2 ⟨rs, hrs⟩
      rw [serve_of_finished hfin] at hreason
      rw [(send_toReq _).1, hacc] at hreason
      exact some_inj.1 (hrs.symm.trans hreason)
    cases hstep with
    | str hw hle =>
      obtain rfl := hfinal _ rfl
      have hle' : r.outputIds.length + 1 ≤ r.samplingParams.maxNewTokens := hlen ▸ hle
      refine served_of_finished hsent hx ?_ ?_ hall
      · rw [take_of_length_le (by simp), take_of_length_le (by simpa using hle')]
      · grind
    | length hle =>
      obtain rfl := hfinal _ rfl
      exact served_of_finished hsent hx rfl (fun s hs => by cases hs) hall
    | other hrs h1 h2 =>
      grind
    | goOn hw hlt =>
      have hlt' : r.outputIds.length + 1 < r.samplingParams.maxNewTokens := hlen ▸ hlt
      have hnot := not_finished_of_goOn hopen hacc
      have hsent' : Sent (r.acceptToken py t) sent surr := by
        exact hsent.congr rfl rfl rfl rfl rfl
      have hv' : ∀ t ∈ ts, r.outOfVocab t = false := fun t ht => hv t (mem_cons_of_mem _ ht)
      have hids : (r.toReq.push [t]).outputIds = sent ++ (buf ++ [t]) := by
        rw [← append_assoc, ← hout]
        rfl
      have hout' : (r.acceptToken py t).outputIdsThroughStop = sent ++ (buf ++ [t]) := by
        rw [← hids, hacc]
        rw [outputIdsThroughStop, show (r.push [t]).finishedLen = none from hfl]
      have hall' : r.outputIds ++ t :: ts = sent ++ (buf ++ [t]) ++ ts := by
        rw [← hids, show (r.toReq.push [t]).outputIds = r.outputIds ++ [t] from rfl, append_assoc]
        rfl
      by_cases hs : (r.acceptToken py t).toReq.shouldOutput cfg (r.acceptToken py t).stream = true
      · have hser : serve py cfg d r status (t :: ts) = _ := serve_of_send hnot hs
        have hitem := hsent'.send_item
        have hnext := hsent'.send (by rw [hout']; exact prefix_append _ _)
        rw [hout', drop_left] at hitem
        rw [hout'] at hnext
        have hreq : (r.acceptToken py t).send.1.toReq = r.toReq.push [t] :=
          (send_toReq _).1.trans (by rw [hacc])
        refine served_of_send hopen hacc hw hlt' (by rwa [hacc] at hs) ?_ <| ih
          (by rw [hreq]; exact hopen) (by rw [hreq]; exact hto) (by rw [hreq]; exact hfl)
          (by rw [hreq]; exact hstop) (by rw [hreq]; exact hv') hnext
          (by rw [hreq, hids, append_nil]) (by rw [hser] at hreason; exact hreason) ?_
        · rw [hitem, hacc]
          show r.channel.item _ r.finishedReason = _
          rw [hopen]
        · rw [hser, hall'] at hall
          rw [hreq, hids]
          exact hall
      · have hser : serve py cfg d r status (t :: ts) = _ := serve_of_hold hnot hs
        have hreq : (r.acceptToken py t).toReq = r.toReq.push [t] := by rw [hacc]
        refine served_of_hold hopen hacc hw hlt' (by rwa [hacc] at hs) <| ih
          (by rw [hreq]; exact hopen) (by rw [hreq]; exact hto) (by rw [hreq]; exact hfl)
          (by rw [hreq]; exact hstop) (by rw [hreq]; exact hv') hsent' (by rw [hreq, hids])
          (by rw [hser] at hreason; exact hreason) ?_
        rw [hser, hall'] at hall
        rw [hreq, hids]
        exact hall

end

/-! ## Holding back -/

section
variable {cfg : StreamConfig} {r : Req} {w : Text} {tok : ℤ → Text} {ts : List ℤ} {j n pos : ℕ}

/-- The messages bring the tokens in order, up to the last one that was due. -/
lemma messagesBefore_flatten (cfg : StreamConfig) (stream : Bool) (r : Req) (buf ts : List ℤ) :
    messagesBefore cfg stream r buf ts = [] ∨ ∃ n, 1 ≤ n ∧ n ≤ ts.length ∧
        (messagesBefore cfg stream r buf ts).flatten = buf ++ ts.take n ∧
        (r.push (ts.take n)).shouldOutput cfg stream = true := by
  induction ts generalizing r buf with
  | nil => exact .inl rfl
  | cons t ts ih =>
    rw [messagesBefore]
    by_cases hs : (r.push [t]).shouldOutput cfg stream = true
    · rw [if_pos hs]
      refine .inr ?_
      rcases ih (r.push [t]) [] with h | ⟨n, h1, h2, h3, h4⟩
      · exact ⟨1, le_rfl, by simp, by rw [h]; simp, hs⟩
      refine ⟨n + 1, by omega, by simpa using h2, ?_, ?_⟩
      · grind
      · simp_all [push_push]
    · rw [if_neg hs]
      rcases ih (r.push [t]) (buf ++ [t]) with h | ⟨n, h1, h2, h3, h4⟩
      · exact .inl h
      refine .inr ⟨n + 1, by omega, by simpa using h2, ?_, ?_⟩
      · rw [h3, take_succ_cons, append_assoc, singleton_append]
      · simp_all [push_push]

/-- What is due at some length is sent by then. -/
lemma le_length_messagesBefore (cfg : StreamConfig) (stream : Bool) (r : Req) (buf ts : List ℤ)
    {j : ℕ} (h1 : 1 ≤ j) (h2 : j ≤ ts.length)
    (hj : (r.push (ts.take j)).shouldOutput cfg stream = true) :
    buf.length + j ≤ (messagesBefore cfg stream r buf ts).flatten.length := by
  induction ts generalizing r buf j with
  | nil => exact absurd h2 (by simpa using Nat.pos_iff_ne_zero.1 h1)
  | cons t ts ih =>
    obtain ⟨i, rfl⟩ : ∃ i, j = i + 1 := ⟨j - 1, by omega⟩
    rw [take_succ_cons] at hj
    have hlater : ∀ buf' : List ℤ, 1 ≤ i →
        buf'.length + i ≤ (messagesBefore cfg stream (r.push [t]) buf' ts).flatten.length :=
      fun buf' hi => ih (r.push [t]) buf' hi (by simpa using h2) (by simpa [push_push] using hj)
    rw [messagesBefore]
    by_cases hs : (r.push [t]).shouldOutput cfg stream = true
    · rw [if_pos hs, flatten_cons, length_append, length_append, length_singleton]
      have := hlater []
      grind
    · rw [if_neg hs]
      have hi : i ≠ 0 := by
        rintro rfl
        exact hs (by simpa using hj)
      have := hlater (buf ++ [t]) (by omega)
      rw [length_append, length_singleton] at this
      omega

/-- The tail after `j` tokens. -/
lemma tailStr_one (hs : r.samplingParams.stopStrs ≠ []) (hj : 1 ≤ j) (hk : j ≤ ts.length) :
    (r.push (ts.take j)).tailStr 1 = r.decode (r.eachWindow ts j) := by
  have hL := r.one_le_maxLenTailStr
  have hlen := length_push_take (r := r) hk
  have htail : (r.push (ts.take j)).stopMatchTailLen 1 =
      min r.maxLenTailStr (r.outputIds.length + j) := by
    rw [stopMatchTailLen, hlen, Nat.sub_self, add_zero]
    rfl
  rw [tailStr, if_neg (fun h => hs h.1), htail, lastN_of_pos (by omega), hlen, eachWindow]
  show r.decode _ = _
  congr 2
  omega

/-- A request is not held back: the tail does not end in a beginning of the stop string. -/
lemma not_held (hs : r.samplingParams.stopStrs = [w]) (hw : w ≠ [])
    (h : r.checkMatchStopStrPrefix = false) {i : ℕ} (h1 : 1 ≤ i) (h2 : i ≤ (r.tailStr 1).length)
    (h3 : i ≤ w.length) : lastN i (r.tailStr 1) ≠ w.take i := by
  intro heq
  have hne : r.tailStr 1 ≠ [] := by
    grind
  have htrue : r.checkMatchStopStrPrefix = true := by
    unfold checkMatchStopStrPrefix
    rw [if_neg (by rw [hs]; exact cons_ne_nil _ _)]
    rw [if_neg hne, hs, any_cons, any_nil, Bool.or_false, Bool.and_eq_true, Bool.or_eq_true]
    refine ⟨by simpa using hw, .inr ?_⟩
    rw [List.any_eq_true]
    exact ⟨i, mem_range'_1.2 (by omega), decide_eq_true heq⟩
  rw [h] at htrue
  exact Bool.false_ne_true htrue

/-- **What a streaming request sends ends before the stop string begins.** -/
theorem length_le_of_shouldOutput (hd : r.Decodes tok) (hout : r.outputIds = [])
    (hs : r.samplingParams.stopStrs = [w]) (hw : w ≠ []) (hspan : r.StopsSpan tok ts)
    (hn : 1 ≤ n) (hk : n ≤ ts.length) (hnot : ¬ w <:+: (ts.take n).flatMap tok)
    (hsend : (r.push (ts.take n)).shouldOutput cfg true = true)
    (hpos : OccursAt w (ts.flatMap tok) pos) : ((ts.take n).flatMap tok).length ≤ pos := by
  have hheld : (r.push (ts.take n)).checkMatchStopStrPrefix = false := by
    simp_all [shouldOutput, Bool.and_eq_true]
  by_contra hlt
  rw [not_le] at hlt
  have hocc := hpos
  rw [flatMap_take_drop tok ts n] at hocc
  have hend := occursAt_of_not_infix hocc hnot
  -- the occurrence begins in the tail
  obtain ⟨a, b, hab, ha, hb⟩ := hspan w (by rw [hs]; exact mem_singleton_self w) pos hpos
  have hnb : n < b := lt_of_length_flatMap_take_lt (f := tok) (l := ts) (by omega)
  have hL : r.samplingParams.stopStrMaxLen + 1 ≤ r.maxLenTailStr := le_max_left _ _
  set X := ts.take n with hX
  set D := n - r.maxLenTailStr with hD
  have hstart : ((X.take D).flatMap tok).length ≤ pos := by
    rw [hX, take_take, min_eq_left (by omega)]
    exact (length_flatMap_take_mono tok ts (by omega)).trans ha
  have htail : (r.push X).tailStr 1 = (X.drop D).flatMap tok := by
    rw [hX, tailStr_one (by rw [hs]; exact cons_ne_nil _ _) hn hk, hd, eachWindow, hout,
      nil_append, length_nil, zero_add]
  have hlen := congrArg List.length (flatMap_take_drop tok X D)
  rw [length_append, ← htail] at hlen
  refine not_held (r := r.push X) hs hw hheld (i := (X.flatMap tok).length - pos) (by omega)
    (by omega) (by omega) ?_
  rw [← hocc.drop_eq_take hlt.le hend.le, lastN_of_pos (by omega), htail]
  conv_rhs => rw [flatMap_take_drop tok X D]
  rw [drop_append, drop_eq_nil_of_le hstart, nil_append]
  congr 1
  rw [← htail]
  omega

end

end Sglang.Output
