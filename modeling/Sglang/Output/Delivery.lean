import Sglang.Output.Sent

/-!
# The text that a client gets

A request with one stop string `w` is served until it finishes on `w` or by length.  The client
should have the decoded output, cut before the first `w` in the first case (`deliverable`).  It has
exactly that if no message takes text back and, when the request is not streaming, the messages sent
at the forced interval end before `w` begins (`NothingLeaks`).  Only a token that decodes to U+FFFD
itself can make a message take text back; without such tokens what counts is where the last forced
interval ends (`ForcedBeforeStop`).
-/

namespace Sglang.Output
open Lib Detokenizer List Option StreamReq Req

/-- The decoded output, cut just before the first `w` when the request finishes on `w`. -/
def deliverable (w : Text) (reason : FinishReason) (text : Text) : Text :=
  match reason.kind with
  | .matchedStr => text.take ((find w text).getD text.length)
  | _ => text

/-- A request before its first token. -/
structure Fresh (r : StreamReq) : Prop where
  outputIds : r.outputIds = []
  reason : r.finishedReason = none
  toFinish : r.toFinish = none
  finishedLen : r.finishedLen = none
  offsets : r.offsets = none
  sendDecodeIdOffset : r.sendDecodeIdOffset = 0

/-- The messages before the last, for the output tokens `ts`. -/
def StreamReq.messagesOf (cfg : StreamConfig) (r : StreamReq) (ts : List ℤ) : List (List ℤ) :=
  messagesBefore cfg r.stream r.toReq [] ts.dropLast

/-- Nothing that has to be cut off is sent before the end.  An empty stop string is never cut off,
so then the text has to be empty. -/
structure NothingLeaks (cfg : StreamConfig) (dec : List ℤ → Text) (r : StreamReq) (w : Text)
    (reason : FinishReason) (ts : List ℤ) : Prop where
  empty : reason.kind = .matchedStr → w = [] → dec ts = []
  steady : Steady dec [] (r.messagesOf cfg ts)
  forced : reason.kind = .matchedStr → r.stream = false → ∀ pos ∈ find w (dec ts),
    released dec [] (r.messagesOf cfg ts) ≤ pos

/-- The last length before the end, `n`, at which a request that is not streaming is sent. -/
def StreamConfig.lastForced (cfg : StreamConfig) (n : ℕ) : ℕ :=
  (n - 1) / cfg.defaultForceStreamInterval * cfg.defaultForceStreamInterval

/-- `NothingLeaks` for tokens without U+FFFD: what is sent at the last forced interval ends before
the stop string begins. -/
structure ForcedBeforeStop (cfg : StreamConfig) (dec : List ℤ → Text) (r : StreamReq) (w : Text)
    (reason : FinishReason) (ts : List ℤ) : Prop where
  empty : reason.kind = .matchedStr → w = [] → dec ts = []
  forced : reason.kind = .matchedStr → r.stream = false → ∀ pos ∈ find w (dec ts),
    (dec (ts.take (cfg.lastForced ts.length))).length ≤ pos

section
variable {py : Python} {cfg : StreamConfig} {d : Detokenizer} {r : StreamReq} {w : Text}
  {tok : ℤ → Text} {reason : FinishReason} {ts : List ℤ}

/-- Tokens without U+FFFD are sent whole, and nothing is taken back. -/
lemma released_of_whole {cur : List ℤ} {ms : List (List ℤ)} (hcur : cur.flatMap tok = [])
    (hms : ∀ t ∈ ms.flatten, Utf8.replacement ∉ tok t) :
    released (·.flatMap tok) cur ms = (ms.flatten.flatMap tok).length ∧
      Steady (·.flatMap tok) cur ms := by
  induction ms generalizing cur with
  | nil =>
    refine ⟨?_, trivial⟩
    rw [released, pending, hcur]
    rfl
  | cons m ms ih =>
    have hm : (cur ++ m).flatMap tok = m.flatMap tok := by rw [flatMap_append, hcur, nil_append]
    have hms' : ∀ t ∈ ms.flatten, Utf8.replacement ∉ tok t := fun t ht =>
      hms t (by rw [flatten_cons]; exact mem_append_right _ ht)
    simp only [released, Steady, hm, flatten_cons, flatMap_append, length_append]
    by_cases hc : Clean (m.flatMap tok)
    · obtain ⟨hlen, hsteady⟩ := ih (show ([] : List ℤ).flatMap tok = [] from rfl) hms'
      rw [if_pos hc, if_pos hc, hlen]
      exact ⟨rfl, hsteady⟩
    · -- a text that is not clean and has no U+FFFD is empty
      have hnil : m.flatMap tok = [] := by
        by_contra hne
        refine hc ⟨hne, fun hlast => ?_⟩
        obtain ⟨t, ht, hmem⟩ := mem_flatMap.1 (mem_of_getLast? hlast)
        exact hms t (by rw [flatten_cons]; exact mem_append_left _ ht) hmem
      obtain ⟨hlen, hsteady⟩ := ih (hm.trans hnil) hms'
      rw [if_neg hc, if_neg hc, hlen, hnil, hcur]
      exact ⟨(Nat.zero_add _).symm, by simp [Retreats], hsteady⟩

/-- Without streaming, the messages before the last end at the last forced interval. -/
lemma flatten_messagesOf (hout : r.outputIds = []) (hstream : r.stream = false) :
    (r.messagesOf cfg ts).flatten = ts.take (cfg.lastForced ts.length) := by
  have hdue : ∀ j, j ≤ ts.dropLast.length → ((r.toReq.push (ts.dropLast.take j)).shouldOutput cfg
      r.stream = true ↔ cfg.defaultForceStreamInterval ∣ j) := by
    intro j hj
    rw [hstream, Req.shouldOutput, if_neg Bool.false_ne_true, decide_eq_true_eq, Req.push, hout,
      nil_append, length_take_of_le hj, Nat.dvd_iff_mod_eq_zero]
  have hle : cfg.lastForced ts.length ≤ ts.dropLast.length := by
    rw [length_dropLast]
    exact Nat.div_mul_le_self _ _
  -- whatever is due is sent, so the last message ends at the greatest multiple
  have hsent : cfg.lastForced ts.length ≤ (r.messagesOf cfg ts).flatten.length := by
    rcases Nat.eq_zero_or_pos (cfg.lastForced ts.length) with h0 | hpos
    · rw [h0]
      exact Nat.zero_le _
    · have := le_length_messagesBefore cfg r.stream r.toReq [] ts.dropLast hpos hle
        ((hdue _ hle).2 (Nat.dvd_mul_left _ _))
      rwa [length_nil, Nat.zero_add] at this
  rw [StreamReq.messagesOf] at hsent ⊢
  rcases messagesBefore_flatten cfg r.stream r.toReq [] ts.dropLast with hm | ⟨n, -, h2, h3, h4⟩
  · rw [hm] at hsent ⊢
    rw [Nat.le_zero.1 hsent, take_zero]
    rfl
  · rw [h3, nil_append, length_take_of_le h2] at hsent
    have hn : n ≤ cfg.lastForced ts.length := by
      rw [StreamConfig.lastForced, ← Nat.div_mul_cancel ((hdue n h2).1 h4)]
      rw [length_dropLast] at h2
      exact Nat.mul_le_mul_right _ (Nat.div_le_div_right h2)
    rw [h3, nil_append, Nat.le_antisymm hn hsent, dropLast_eq_take, take_take,
      min_eq_left (by rwa [length_dropLast] at hle)]

lemma flatMap_incremental (tok : ℤ → Text) : Incremental fun ids => ids.flatMap tok where
  nil := rfl
  append x _ y := flatMap_append
  stable x y := by
    rw [flatMap_append]
    exact ( dropLast_prefix _).trans (prefix_append _ _)

variable {status : Option DecodeStatus} {surr : List ℤ}

/-- The stop string is not in the text before the request finishes. -/
lemma Served.not_infix (h : Served py cfg d w reason r status [] surr [] ts)
    (hout : r.outputIds = []) (hd : r.toReq.Decodes tok) (hs : r.samplingParams.stopStrs = [w])
    (hspan : r.StopsSpan tok ts) {n : ℕ} (hn : 1 ≤ n) (hk : n < ts.length) :
    ¬ w <:+: (ts.take n).flatMap tok := by
  have hne : r.samplingParams.stopStrs ≠ [] := by rw [hs]; exact cons_ne_nil _ _
  intro hin
  have hwin : r.toReq.window (ts.take n) = ts.take n := by
    rw [Req.window, hout, drop_nil, nil_append]
  rw [← hd, ← hwin, Req.infix_window_iff hd (by rw [hout]; exact hspan)
    (by rw [hs]; exact mem_singleton_self w) hn] at hin
  obtain ⟨i, h1, h2, hi⟩ := hin
  rw [← tailStr_one hne h1 (by omega)] at hi
  exact h.before i h1 (by omega) hi

lemma Served.flatten_prefix (h : Served py cfg d w reason r status [] surr [] ts) :
    (r.messagesOf cfg ts).flatten <+: ts.take r.samplingParams.maxNewTokens := by
  have hbudget := h.budget
  rcases messagesBefore_flatten cfg r.stream r.toReq [] ts.dropLast with hm | ⟨n, h1, h2, h3, -⟩
  · simp [StreamReq.messagesOf, hm]
  rw [StreamReq.messagesOf, h3, nil_append]
  refine prefix_of_prefix_length_le (( take_prefix _ _).trans ( dropLast_prefix ts))
    ( take_prefix _ _) ?_
  rw [length_take, length_take, length_dropLast]
  omega

lemma find_getD {text : Text} {pos : ℕ} (h : find w text = some pos) :
    text.take ((find w text).getD text.length) = text.take pos ∧ (text.take pos).length = pos := by
  refine ⟨by rw [h]; rfl, ?_⟩
  have := (find_eq_some.1 h).1.1
  rw [length_take]
  omega

lemma Served.text_eq
    (h : Served py cfg d w reason r none [] (surrIds r.originInputIdsUnpadded) [] ts)
    (hout : r.outputIds = []) (htrim : r.samplingParams.noStopTrim = false)
    (hdd : d.decode = fun ids => ids.flatMap tok) (hknown : ∀ t ∈ ts, d.Known t)
    (hkind : reason.kind ≠ .matchedToken) :
    (serve py cfg d r none ts).1 = emitted d.decode [] (r.messagesOf cfg ts) ++
      (trimMatchedStopText (d.decode (ts.take r.samplingParams.maxNewTokens)) (some reason)
        false).drop (released d.decode [] (r.messagesOf cfg ts)) := by
  have hdec : Incremental d.decode := by rw [hdd]; exact flatMap_incremental tok
  have hpre := h.flatten_prefix
  have htext := h.text
  rw [hout] at htext
  simp only [nil_append, length_nil, zero_add] at htext
  rw [htext]
  change d.decodeItems none (r.channel.messages reason ((ts.take _).drop
    (r.messagesOf cfg ts).flatten.length) _ (r.messagesOf cfg ts)) = _
  obtain ⟨last, hlast⟩ := hpre
  have hknown' : ∀ t ∈ (r.messagesOf cfg ts).flatten ++ last, d.Known t := by
    grind
  rw [← hlast, drop_left, decodeItems_messages hdec
    (receives_none hdec.nil (by rw [hdd]; exact fun y => flatMap_append) rfl)
    (fun m hm t ht => hknown' t (mem_append_left _ (mem_flatten.2 ⟨m, hm, ht⟩)))
    (fun t ht => hknown' t (mem_append_right _ ht)) hkind]
  simp only [nil_append, length_nil, zero_add, StreamReq.channel, htrim]

/-- What a streaming request has sent when it finishes on `w` ends before the first `w`. -/
lemma Served.released_le {pos : ℕ} (h : Served py cfg d w reason r status [] surr [] ts)
    (hout : r.outputIds = []) (hd : r.toReq.Decodes tok)
    (hdd : d.decode = fun ids => ids.flatMap tok) (hs : r.samplingParams.stopStrs = [w])
    (hw : w ≠ []) (hspan : r.StopsSpan tok ts) (hstream : r.stream = true)
    (hpos : OccursAt w (d.decode ts) pos) : released d.decode [] (r.messagesOf cfg ts) ≤ pos := by
  have hdec : Incremental d.decode := by rw [hdd]; exact flatMap_incremental tok
  have hle := Output.released_le hdec hdec.not_clean_nil (r.messagesOf cfg ts) []
  rw [nil_append, append_nil] at hle
  refine hle.trans ?_
  rcases messagesBefore_flatten cfg r.stream r.toReq [] ts.dropLast with hm | ⟨n, h1, h2, h3, h4⟩
  · grind [StreamReq.messagesOf]
  rw [length_dropLast] at h2
  have htake : ts.dropLast.take n = ts.take n := by
    rw [dropLast_eq_take, take_take, min_eq_left h2]
  rw [htake] at h3 h4
  rw [hstream] at h4
  rw [StreamReq.messagesOf, h3, nil_append, hdd]
  rw [hdd] at hpos
  exact length_le_of_shouldOutput hd hout hs hw hspan h1 (by omega)
    (h.not_infix hout hd hs hspan h1 (by omega)) h4 hpos

/-- A request that finishes on an empty stop string does so at its first token. -/
lemma Served.messagesOf_nil (h : Served py cfg d [] reason r status [] surr [] ts) :
    r.messagesOf cfg ts = [] := by
  have hlen : ts.length ≤ 1 := by
    by_contra hlt
    exact h.before 1 le_rfl (by omega) nil_infix
  have : ts.dropLast = [] := eq_nil_of_length_eq_zero (by rw [length_dropLast]; omega)
  rw [StreamReq.messagesOf, this, messagesBefore]

/-- The text holds the stop string when the request finishes on it. -/
lemma Served.infix {s : Text} (h : Served py cfg d w (.matchedStr s) r status [] surr [] ts)
    (hout : r.outputIds = []) (hd : r.toReq.Decodes tok) (hs : r.samplingParams.stopStrs = [w]) :
    w <:+: ts.flatMap tok := by
  have hne : r.samplingParams.stopStrs ≠ [] := by rw [hs]; exact cons_ne_nil _ _
  have htail := (h.stop s rfl).2.1
  have hlen := length_pos_iff.2 h.ne
  have heq := tailStr_one hne hlen le_rfl
  rw [take_length] at heq
  rw [heq, hd, Req.eachWindow, hout, take_length, nil_append] at htail
  exact infix_of_infix_drop (a := 0) htail (Nat.zero_le _)

/-- Without U+FFFD nothing leaks exactly if the last forced message ends before the stop string. -/
lemma nothingLeaks_iff (hout : r.outputIds = []) (hdd : d.decode = fun ids => ids.flatMap tok)
    (hwhole : ∀ t ∈ ts, Utf8.replacement ∉ tok t) :
    NothingLeaks cfg d.decode r w reason ts ↔ ForcedBeforeStop cfg d.decode r w reason ts := by
  have hmem : ∀ t ∈ (r.messagesOf cfg ts).flatten, Utf8.replacement ∉ tok t := by
    intro t ht
    refine hwhole t ?_
    rcases messagesBefore_flatten cfg r.stream r.toReq [] ts.dropLast with hm | ⟨n, -, -, h3, -⟩
    · rw [StreamReq.messagesOf, hm] at ht
      cases ht
    · rw [StreamReq.messagesOf, h3, nil_append] at ht
      exact mem_of_mem_dropLast (mem_of_mem_take ht)
  obtain ⟨hlen, hsteady⟩ :=
    released_of_whole (show ([] : List ℤ).flatMap tok = [] from rfl) hmem
  rw [← hdd] at hlen hsteady
  have hforced : r.stream = false → released d.decode [] (r.messagesOf cfg ts) =
      (d.decode (ts.take (cfg.lastForced ts.length))).length := by
    intro hstream
    rw [hlen, flatten_messagesOf hout hstream, hdd]
  constructor
  · rintro ⟨hempty, -, hleak⟩
    refine ⟨hempty, fun hkind hstream pos hpos => ?_⟩
    rw [← hforced hstream]
    exact hleak hkind hstream pos hpos
  · rintro ⟨hempty, hleak⟩
    refine ⟨hempty, hsteady, fun hkind hstream pos hpos => ?_⟩
    rw [hforced hstream]
    exact hleak hkind hstream pos hpos

/-- **The client has what it should have exactly if nothing leaks**: for tokens without U+FFFD, if
the last message sent at the forced interval ends before the stop string begins. -/
theorem serve_text_eq_iff (hfresh : Fresh r) (hs : r.samplingParams.stopStrs = [w])
    (htrim : r.samplingParams.noStopTrim = false) (hd : r.toReq.Decodes tok)
    (hdd : d.decode = fun ids => ids.flatMap tok) (hv : ∀ t ∈ ts, r.outOfVocab t = false)
    (hknown : ∀ t ∈ ts, d.Known t) (hspan : r.StopsSpan tok ts)
    (hreason : (serve py cfg d r none ts).2.finishedReason = some reason)
    (hkind : reason.kind = .matchedStr ∨ reason.kind = .length)
    (hall : (serve py cfg d r none ts).2.outputIds = ts) :
    ((serve py cfg d r none ts).1 =
        deliverable w reason (d.decode (serve py cfg d r none ts).2.outputIdsThroughStop) ↔
      NothingLeaks cfg d.decode r w reason ts) ∧
    ((∀ t ∈ ts, Utf8.replacement ∉ tok t) →
      (NothingLeaks cfg d.decode r w reason ts ↔
        ForcedBeforeStop cfg d.decode r w reason ts)) := by
  refine ⟨?_, nothingLeaks_iff hfresh.outputIds hdd⟩
  have hdec : Incremental d.decode := by rw [hdd]; exact flatMap_incremental tok
  have hnil := hfresh.outputIds
  have hserved : Served py cfg d w reason r none [] (surrIds r.originInputIdsUnpadded) [] ts :=
    serve_served hfresh.reason hfresh.toFinish hfresh.finishedLen hs hv
      (.nothing hfresh.offsets hfresh.sendDecodeIdOffset) hnil hreason hkind
      (by rw [hall, hnil, nil_append])
  obtain ⟨last, hlast⟩ := hserved.flatten_prefix
  have hout := hserved.out
  rw [hnil, nil_append] at hout
  rw [hserved.text_eq hnil htrim hdd hknown
    (by rcases hkind with hk | hk <;> rw [hk] <;> exact fun h => by cases h), hout]
  cases reason with
  | length n =>
    have htrimmed : ∀ text, trimMatchedStopText text (some (.length n)) false = text := fun _ => rfl
    have hdel : ∀ text, deliverable w (.length n) text = text := fun _ => rfl
    have hle := released_le hdec hdec.not_clean_nil (r.messagesOf cfg ts) last
    rw [nil_append] at hle
    rw [htrimmed, hdel, ← hlast, emitted_append_drop_iff hdec prefix_rfl, and_iff_left hle]
    exact ⟨fun h => ⟨(fun hk => by cases hk), h, (fun hk => by cases hk)⟩, fun h => h.steady⟩
  | matchedStr s =>
    obtain ⟨rfl, -, hmax⟩ := hserved.stop s rfl
    rw [hnil, length_nil, zero_add] at hmax
    rw [take_of_length_le hmax] at hlast ⊢
    have hin := hserved.infix hnil hd hs
    obtain ⟨pos, hpos⟩ := Option.isSome_iff_exists.1 (find_isSome.2 hin)
    have hpos' : find s (d.decode ts) = some pos := by rw [hdd]; exact hpos
    obtain ⟨hcut, hlen⟩ := find_getD hpos'
    have hdel : deliverable s (.matchedStr s) (d.decode ts) = (d.decode ts).take pos := hcut
    rw [hdel]
    by_cases hw : s = []
    · -- nothing is cut off, and nothing has been sent before
      subst hw
      have hms := hserved.messagesOf_nil
      obtain rfl : pos = 0 := by
        have := (find_eq_some.1 hpos').2
        by_contra hne
        exact this 0 (by omega) (occursAt_zero.2 nil_prefix)
      have htrimmed : trimMatchedStopText (d.decode ts) (some (.matchedStr [])) false =
          d.decode ts := rfl
      rw [hms, htrimmed, emitted, released, pending_nil hdec, drop_zero, nil_append, take_zero]
      constructor
      · intro hempty
        refine ⟨fun _ _ => hempty, by rw [hms]; trivial, fun _ _ p hp => ?_⟩
        rw [hms, released, pending_nil hdec]
        exact Nat.zero_le p
      · exact fun h => h.empty rfl rfl
    · have htrimmed : trimMatchedStopText (d.decode ts) (some (.matchedStr s)) false =
          (d.decode ts).take pos := by
        simp only [trimMatchedStopText, Option.bind_some, FinishReason.matchedText, if_neg hw,
          hpos']
        rfl
      have hcutpre : (d.decode ts).take pos <+:
          d.decode ((r.messagesOf cfg ts).flatten ++ last) := by
        grind
      rw [htrimmed, emitted_append_drop_iff hdec hcutpre, hlen]
      constructor
      · rintro ⟨hsteady, hle⟩
        refine ⟨fun _ h => absurd h hw, hsteady, fun _ _ p hp => ?_⟩
        rw [hpos', Option.mem_some_iff] at hp
        exact hp ▸ hle
      · intro h
        refine ⟨h.steady, ?_⟩
        by_cases hstream : r.stream = true
        · exact hserved.released_le hnil hd hdd hs hw hspan hstream (find_eq_some.1 hpos').1
        · exact h.forced rfl (Bool.eq_false_iff.2 hstream) pos hpos'
  | matchedToken t => rcases hkind with hk | hk <;> cases hk
  | matchedRegex x => rcases hkind with hk | hk <;> cases hk
  | abort a b c => rcases hkind with hk | hk <;> cases hk

end

/-! ## A stop string of two tokens -/

/-- A request with the stop string `bc`, over tokens that are letters. -/
def stopReq (stream : Bool) : StreamReq where
  samplingParams := ⟨10, [['b', 'c']], 2, [], 0, [], false, false, none⟩
  tokenizer := some ⟨fun _ => [], fun ids => ids.flatMap Req.letterTok, none, []⟩
  eosTokenIds := []
  vocabSize := some 4
  grammar := none
  outputIds := []
  decodedText := []
  toFinish := none
  finishedReason := none
  finishedLen := none
  tokenizer_of_stops := fun _ h => by cases h
  decodedText_nil := no_text
  rid := 0
  originInputIdsUnpadded := []
  stream := stream
  offsets := none
  surrAndDecodeIds := []
  curDecodeIdsLen := 0
  sendDecodeIdOffset := 0
  finishedOutput := false

/-- A streaming request is sent after every token, any other one after every second. -/
def everyOther : StreamConfig := ⟨1, 2⟩

def letterDetokenizer : Detokenizer := ⟨fun ids => ids.flatMap Req.letterTok, some 4, false⟩

lemma stopReq_span (stream : Bool) : (stopReq stream).StopsSpan Req.letterTok [1, 2, 3] := by
  intro s hs c hc
  obtain rfl : s = ['b', 'c'] := by simpa [stopReq] using hs
  have hle : c ≤ 1 := by
    have := hc.1
    simp [Req.letterTok] at this
    omega
  interval_cases c
  · exact absurd hc (by decide)
  · exact ⟨1, 3, le_rfl, by decide, by decide⟩

/-- Without streaming the `b` of the stop string is sent at the forced interval. -/
theorem forced_message_leaks :
    Fresh (stopReq false) ∧ (stopReq false).toReq.Decodes Req.letterTok ∧
      (stopReq false).StopsSpan Req.letterTok [1, 2, 3] ∧
      (serve Req.noRegex everyOther letterDetokenizer (stopReq false) none [1, 2, 3]).1 =
        "ab".toList ∧
      (serve Req.noRegex everyOther letterDetokenizer (stopReq false) none
        [1, 2, 3]).2.finishedReason = some (.matchedStr "bc".toList) ∧
      deliverable "bc".toList (.matchedStr "bc".toList) (letterDetokenizer.decode [1, 2, 3]) =
        "a".toList :=
  ⟨⟨rfl, rfl, rfl, rfl, rfl, rfl⟩, fun _ => rfl, stopReq_span false, by decide +kernel,
    by decide +kernel, by decide +kernel⟩

theorem streamed_text_eq :
    (serve Req.noRegex everyOther letterDetokenizer (stopReq true) none [1, 2, 3]).1 =
      deliverable "bc".toList (.matchedStr "bc".toList) (letterDetokenizer.decode
        (serve Req.noRegex everyOther letterDetokenizer (stopReq true) none
          [1, 2, 3]).2.outputIdsThroughStop) := by
  have hknown : ∀ t, t ∈ [1, 2, 3] → letterDetokenizer.Known t := by
    intro t ht
    have hlt : 0 ≤ t ∧ t < 4 := by
      grind
    exact ⟨hlt.1, fun hi h => .inr (by rw [← Option.mem_some_iff.1 h]; exact hlt.2)⟩
  exact (serve_text_eq_iff ⟨rfl, rfl, rfl, rfl, rfl, rfl⟩ rfl rfl (fun _ => rfl) rfl
    (by decide) hknown (stopReq_span true) (by decide +kernel) (.inl rfl) (by decide +kernel)).1.2
    ⟨(fun _ h => by cases h), by decide +kernel, (fun _ h => by cases h)⟩

end Sglang.Output
