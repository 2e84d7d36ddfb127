import Sglang.Output.Incremental

/-!
# The messages of one request

The first message of a request brings the last few tokens of the prompt along; each message then
brings the tokens since the one before, and the last one the finish reason.  `decodeItems_messages`
says what the detokenizer makes of them: the pieces that `emitted` describes, and of the finished
text what `released` says has not been sent.

For lossy UTF-8 decoding of tokens that are byte strings (`lossyDecode`) this gives the exact
condition under which the pieces are the decoded output.
-/

namespace Sglang.Output
open Lib Detokenizer List

/-! ## Sending -/

/-- The ids that the vocabulary has; any other is decoded as `0`. -/
def Detokenizer.Known (d : Detokenizer) (t : ℤ) : Prop :=
  0 ≤ t ∧ ∀ hi ∈ d.vocabSize, hi = 0 ∨ t < hi

lemma Detokenizer.clampDecodeIds_of_known {d : Detokenizer} {ids : List ℤ}
    (h : ∀ t ∈ ids, d.Known t) : d.clampDecodeIds ids = ids := by
  conv_rhs => rw [← map_id ids]
  exact map_congr_left fun t ht => if_pos (h t ht)

/-- How a request sends its tokens. -/
structure Channel where
  rid : ℕ
  readOffset : ℕ
  noStopTrim : Bool

/-- A message with the tokens `ids`. -/
def Channel.item (c : Channel) (ids : List ℤ) (reason : Option FinishReason) : Item :=
  ⟨c.rid, [], ids, c.readOffset, reason, c.noStopTrim⟩

/-- The messages with the tokens `ms`, and the last one with the finish reason.  The first of them
begins with `surr`. -/
def Channel.messages (c : Channel) (reason : FinishReason) (last : List ℤ) :
    List ℤ → List (List ℤ) → List Item
  | surr, [] => [c.item (surr ++ last) (some reason)]
  | surr, m :: ms => c.item (surr ++ m) none :: c.messages reason last [] ms

/-- The tokens of the prompt that the first message brings along, the last
`INIT_INCREMENTAL_DETOKENIZATION_OFFSET` of them. -/
def surrIds (prompt : List ℤ) : List ℤ := prompt.drop (prompt.length - 5)

/-! ## Receiving -/

/-- The state holds `cur` as the tokens since the last clean point, after the text `text`; what is
printable of `prev` has been sent.  The tokens `a` before `cur` are decoded with them. -/
structure Tracks (d : Detokenizer) (s : DecodeStatus) (prev cur : List ℤ) (text : Text) : Prop where
  ids : ∃ z a, s.decodeIds = z ++ (a ++ cur) ∧ s.surrOffset = z.length ∧
    s.readOffset = z.length + a.length ∧ ∀ y, d.decode (a ++ y) = d.decode a ++ d.decode y
  decoded : s.getDecodedText = text
  len : s.decodedTextLen = text.length
  sent : s.sentOffset = text.length + pending d.decode prev

/-- The next message, with `surr` before its tokens, is added to `cur`. -/
def Receives (d : Detokenizer) (status : Option DecodeStatus) (c : Channel) (surr cur : List ℤ)
    (text : Text) : Prop :=
  ∀ m reason, (∀ t ∈ m, d.Known t) →
    Tracks d (d.receive status (c.item (surr ++ m) reason)) cur (cur ++ m) text

section
variable {d : Detokenizer} {s : DecodeStatus} {status : Option DecodeStatus} {c : Channel}
  {surr prev cur m last : List ℤ} {text : Text} {item : Item} {ms : List (List ℤ)}
  {reason : FinishReason}

lemma Tracks.receives (h : Tracks d s cur cur text) (c : Channel) :
    Receives d (some s) c [] cur text := by
  intro m reason hm
  obtain ⟨z, a, hids, hsurr, hread, hsplit⟩ := h.ids
  refine ⟨⟨z, a, ?_, hsurr, hread, hsplit⟩, h.decoded, h.len, h.sent⟩
  show s.decodeIds ++ d.clampDecodeIds ([] ++ m) = _
  rw [nil_append, clampDecodeIds_of_known hm, hids]
  simp only [append_assoc]

/-- The first message, if the tokens of the prompt that it brings end on a character boundary. -/
lemma receives_none (hdec : d.decode [] = [])
    (hsurr : ∀ y, d.decode (d.clampDecodeIds surr ++ y) =
      d.decode (d.clampDecodeIds surr) ++ d.decode y) (hc : c.readOffset = surr.length) :
    Receives d none c surr [] [] := by
  intro m reason hm
  refine ⟨⟨[], d.clampDecodeIds surr, ?_, rfl, ?_, hsurr⟩, rfl, rfl, ?_⟩
  · show d.clampDecodeIds (surr ++ m) = _
    rw [clampDecodeIds, map_append, nil_append, nil_append]
    exact congrArg _ (clampDecodeIds_of_known hm)
  · show c.readOffset = _
    rw [hc, clampDecodeIds, length_map, length_nil, Nat.zero_add]
  · rw [pending, hdec]
    rfl

lemma trimMatchedStopIds_of_kind {output : List ℤ} {r : Option FinishReason} {b : Bool}
    (h : ∀ x ∈ r, x.kind ≠ .matchedToken) : d.trimMatchedStopIds output r b = output := by
  cases r with
  | none => rfl
  | some x =>
    cases x with
    | matchedToken t => exact absurd rfl (h _ rfl)
    | _ => rfl

/-- The new text of a message is what its undecided tokens decode to. -/
lemma Tracks.newText (h : Tracks d s prev cur text) (item : Item)
    (hr : ∀ x ∈ item.finishedReason, x.kind ≠ .matchedToken) :
    d.newText s item = d.decode cur := by
  obtain ⟨z, a, hids, hsurr, hread, hsplit⟩ := h.ids
  have hsurrIds : (s.decodeIds.take s.readOffset).drop s.surrOffset = a := by
    rw [hids, hread, hsurr, take_length_add_append, take_left, drop_left]
  unfold Detokenizer.newText
  dsimp only
  rw [trimMatchedStopIds_of_kind hr, hsurrIds, hids, hsurr, drop_left, hsplit, drop_left]

lemma getDecodedText_append (s : DecodeStatus) (t : Text) :
    (s.appendDecodedText t).getDecodedText = s.getDecodedText ++ t := by
  grind [DecodeStatus.appendDecodedText, DecodeStatus.getDecodedText]

lemma decodedTextLen_append (s : DecodeStatus) (t : Text) :
    (s.appendDecodedText t).decodedTextLen = s.decodedTextLen + t.length := by
  grind [DecodeStatus.appendDecodedText]

lemma appendDecodedText_ids (s : DecodeStatus) (t : Text) :
    (s.appendDecodedText t).decodeIds = s.decodeIds ∧
      (s.appendDecodedText t).readOffset = s.readOffset := by
  grind [DecodeStatus.appendDecodedText]

/-- `sentOffset` remembers how much of the undecided text was sent. -/
lemma Tracks.sent_sub (h : Tracks d s prev cur text) :
    s.sentOffset - s.decodedTextLen = pending d.decode prev := by
  rw [h.sent, h.len, Nat.add_sub_cancel_left]

variable (hdec : Incremental d.decode)

include hdec

/-- A message whose text is clean is sent whole, and its tokens are done with. -/
lemma Tracks.decodeItem_clean (h : Tracks d (d.receive status item) prev cur text)
    (hr : item.finishedReason = none) (hc : Clean (d.decode cur)) :
    (d.decodeItem status item).1 = (d.decode cur).drop (pending d.decode prev) ∧
      ∃ s', (d.decodeItem status item).2 = some s' ∧ Tracks d s' [] [] (text ++ d.decode cur) := by
  have hnew := h.newText item (by rw [hr]; exact fun x hx => by cases hx)
  obtain ⟨z, a, hids, -, hread, -⟩ := h.ids
  unfold decodeItem
  simp only [hr, hnew, if_pos hc, h.sent_sub]
  refine ⟨trivial, _, rfl, ⟨z ++ a, cur, ?_, ?_, ?_, hdec.append cur hc⟩, ?_, ?_, ?_⟩
  · simp only [appendDecodedText_ids, hids, append_assoc, append_nil]
  · simp only [appendDecodedText_ids, hread, length_append]
  · simp only [appendDecodedText_ids, hids, length_append]
    omega
  · exact (getDecodedText_append _ _).trans (by rw [h.decoded])
  · simp only [decodedTextLen_append, h.len, length_append]
  · simp only [decodedTextLen_append, h.len, length_append, pending_nil hdec, Nat.add_zero]

omit hdec

/-- Of a message whose text is not clean a printable beginning is sent. -/
lemma Tracks.decodeItem_undecided (h : Tracks d (d.receive status item) prev cur text)
    (hr : item.finishedReason = none) (hc : ¬ Clean (d.decode cur)) :
    (d.decodeItem status item).1 = (findPrintableText (d.decode cur)).drop (pending d.decode prev) ∧
      ∃ s', (d.decodeItem status item).2 = some s' ∧ Tracks d s' cur cur text := by
  have hnew := h.newText item (by rw [hr]; exact fun x hx => by cases hx)
  unfold decodeItem
  simp only [hr, hnew, if_neg hc, h.sent_sub]
  refine ⟨trivial, _, rfl, h.ids, h.decoded, h.len, ?_⟩
  simp only [h.len, pending]

/-- The last message sends what is left, clean or not. -/
lemma Tracks.decodeItem_last (h : Tracks d (d.receive status item) prev cur text)
    (hr : item.finishedReason = some reason) (hk : reason.kind ≠ .matchedToken) :
    (d.decodeItem status item).1 =
      (trimMatchedStopText (text ++ d.decode cur) (some reason) item.noStopTrim).drop
        (text.length + pending d.decode prev) := by
  grind [h.newText, decodeItem, h.decoded, h.sent]

include hdec

/-- All messages of a request, from the first to the one that finishes it. -/
lemma decodeItems_messages (h : Receives d status c surr cur text)
    (hms : ∀ m ∈ ms, ∀ t ∈ m, d.Known t) (hlast : ∀ t ∈ last, d.Known t)
    (hk : reason.kind ≠ .matchedToken) :
    d.decodeItems status (c.messages reason last surr ms) = emitted d.decode cur ms ++
        (trimMatchedStopText (text ++ d.decode (cur ++ (ms.flatten ++ last))) (some reason)
          c.noStopTrim).drop (text.length + released d.decode cur ms) := by
  induction ms generalizing status surr cur text with
  | nil =>
    have ht := h last (some reason) hlast
    rw [Channel.messages, decodeItems, decodeItems, ht.decodeItem_last rfl hk, append_nil]
    rfl
  | cons m ms ih =>
    have hm := hms m mem_cons_self
    have hms' : ∀ m ∈ ms, ∀ t ∈ m, d.Known t := fun m hm => hms m (mem_cons_of_mem _ hm)
    have ht := h m none hm
    rw [Channel.messages, decodeItems, emitted, released, flatten_cons, append_assoc m,
      ← append_assoc cur m]
    by_cases hc : Clean (d.decode (cur ++ m))
    · obtain ⟨hout, s', hs', ht'⟩ := ht.decodeItem_clean hdec rfl hc
      rw [hout, hs', ih (ht'.receives c) hms', if_pos hc, if_pos hc, hdec.append _ hc,
        nil_append, append_assoc, append_assoc, length_append, Nat.add_assoc]
    · obtain ⟨hout, s', hs', ht'⟩ := ht.decodeItem_undecided rfl hc
      rw [hout, hs', ih (ht'.receives c) hms', if_neg hc, if_neg hc]
      exact (append_assoc _ _ _).symm

end

/-! ## Tokens that are bytes -/

/-- Each token is a byte string, and decoding is lossy UTF-8 decoding of all the bytes. -/
def lossyDecode (bytes : ℤ → List UInt8) (ids : List ℤ) : Text := Utf8.decode (ids.flatMap bytes)

/-- The tokens end where a character ends. -/
def OnBoundary (bytes : ℤ → List UInt8) (ids : List ℤ) : Prop :=
  (Utf8.run .start (ids.flatMap bytes)).2 = .start

section
variable {bytes : ℤ → List UInt8} {d : Detokenizer} {reason : FinishReason}

lemma OnBoundary.append {ids : List ℤ} (h : OnBoundary bytes ids) (y : List ℤ) :
    lossyDecode bytes (ids ++ y) = lossyDecode bytes ids ++ lossyDecode bytes y := by
  simpa [lossyDecode] using Utf8.decode_append h _

lemma OnBoundary.drop {ids : List ℤ} (h : OnBoundary bytes ids) (n : ℕ) :
    OnBoundary bytes (ids.drop n) := by
  rw [OnBoundary, flatMap_take_drop bytes ids n] at h
  exact Utf8.run_suffix_start h

/-- Lossy UTF-8 decoding is incremental: at a clean point the rest decodes on its own. -/
lemma lossyDecode_incremental (bytes : ℤ → List UInt8) : Incremental (lossyDecode bytes) where
  nil := rfl
  append x hx y := OnBoundary.append (Utf8.run_start_of_getLast_ne hx.2) y
  stable x y := by
    rw [lossyDecode, lossyDecode, flatMap_append]
    exact Utf8.dropLast_decode_prefix _ _

lemma trimMatchedStopText_of_kind {output : Text} {b : Bool}
    (h : reason.kind = .length ∨ reason.kind = .abort) :
    trimMatchedStopText output (some reason) b = output := by
  cases reason with
  | length n => rfl
  | abort a b c => rfl
  | _ => rcases h with h | h <;> cases h

/-- **Incremental detokenization sends the decoded output exactly if no message takes text back.**
The messages of the request stand in any sequence of messages of other requests. -/
theorem detokenized_eq_iff (c : Channel) (prompt last : List ℤ) (ms : List (List ℤ))
    {status : ℕ → Option DecodeStatus} {items : List Item}
    (hd : d.decode = lossyDecode bytes) (hprompt : OnBoundary bytes (d.clampDecodeIds prompt))
    (hc : c.readOffset = (surrIds prompt).length) (hnew : status c.rid = none)
    (hitems : (items.filter fun item => item.rid = c.rid) =
      c.messages reason last (surrIds prompt) ms)
    (hms : ∀ m ∈ ms, ∀ t ∈ m, d.Known t) (hlast : ∀ t ∈ last, d.Known t)
    (hk : reason.kind = .length ∨ reason.kind = .abort) :
    (((d.decodeAll status items).filter fun p => p.1 = c.rid).map Prod.snd).flatten =
        lossyDecode bytes (ms.flatten ++ last) ↔
      Steady (lossyDecode bytes) [] ms := by
  have hdec := lossyDecode_incremental bytes
  have hsurr : OnBoundary bytes (d.clampDecodeIds (surrIds prompt)) := by
    simpa [surrIds, clampDecodeIds] using hprompt.drop _
  have hk' : reason.kind ≠ .matchedToken := by
    rcases hk with hk | hk <;> rw [hk] <;> decide
  have hrec : Receives d none c (surrIds prompt) [] [] :=
    receives_none (by rw [hd]; rfl) (by rw [hd]; exact hsurr.append) hc
  rw [decodeAll_filter, hitems, hnew,
    decodeItems_messages (by rw [hd]; exact hdec) hrec hms hlast hk', hd,
    trimMatchedStopText_of_kind hk]
  simp only [nil_append, length_nil, Nat.zero_add]
  rw [emitted_append_drop_iff hdec prefix_rfl, and_iff_left]
  have hle := released_le hdec hdec.not_clean_nil ms last
  rwa [nil_append] at hle

/-! ## A character that is split between two messages -/

/-- The bytes of `中` and the first byte of `é`; its second byte and the first byte of another
one; the second byte. -/
def splitBytes (t : ℤ) : List UInt8 :=
  if t = 1 then [0xE4, 0xB8, 0xAD, 0xC3] else if t = 2 then [0xA9, 0xC3] else [0xA9]

def splitDetokenizer : Detokenizer := ⟨lossyDecode splitBytes, some 4, false⟩

/-- For the text `中éé` in three messages `中` is sent twice. -/
theorem detokenized_repeats :
    let c : Channel := ⟨0, 0, false⟩
    let reason := FinishReason.length 3
    ((splitDetokenizer.decodeAll (fun _ => none) (c.messages reason [3] [] [[1], [2]])).map
        Prod.snd).flatten = "中中éé".toList ∧
      lossyDecode splitBytes [1, 2, 3] = "中éé".toList := by
  decide +kernel

theorem detokenized_in_two : (((splitDetokenizer.decodeAll (fun _ => none)
      ((⟨0, 0, false⟩ : Channel).messages (.length 2) [3] (surrIds []) [[1]])).filter
        fun p => p.1 = 0).map Prod.snd).flatten = lossyDecode splitBytes [1, 3] := by
  have hknown : ∀ t, t ∈ [1, 3] → splitDetokenizer.Known t := by
    intro t ht
    simp only [mem_cons, not_mem_nil, or_false] at ht
    rcases ht with rfl | rfl
    · exact ⟨by decide, fun hi h => .inr (by rw [← Option.mem_some_iff.1 h]; decide)⟩
    · exact ⟨by decide, fun hi h => .inr (by rw [← Option.mem_some_iff.1 h]; decide)⟩
  exact (detokenized_eq_iff ⟨0, 0, false⟩ [] [3] [[1]] rfl rfl rfl rfl rfl
    (fun m hm t ht => hknown t (by simp_all)) (fun t ht => hknown t (by simp_all))
    (.inl rfl)).2 (by decide +kernel)

end

end Sglang.Output
