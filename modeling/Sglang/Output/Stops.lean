import Sglang.Output.OneByOne
import Sglang.Output.Stream
import Sglang.Output.Regex

/-!
# Stop strings and stop regexes are found

After each token the text of the last few tokens is searched for the stops.  How many tokens that
are follows from the stops alone: from the number of tokens in which the tokenizer encodes a stop
string, and from the length of a match of a stop regex in characters.  The output may use other
tokens for the same text, and a character may take several tokens, so that a stop is found only if
it lies in this window.  `finished_of_inWindow` says that it is found then: the text of the window
is U+FFFD for the rest of a character that the window cuts in two, and then the end of the decoded
output.
-/

namespace Sglang.Output
open Lib List Option

/-! ## Normalizing -/

/-- A stop argument: one string or several. -/
inductive StopArg
  | one (s : Text)
  | many (l : List Text)

def StopArg.toList : StopArg → List Text
  | .one s => [s]
  | .many l => l

/-- What a request sets. -/
structure StopArgs where
  stop : Option StopArg
  stopRegex : Option StopArg
  minNewTokens : ℕ

/-- The stops of a request after `normalize`. -/
structure Stops where
  stopStrs : List Text
  stopStrMaxLen : ℕ
  stopRegexStrs : List Text
  stopRegexMaxLen : ℕ
  deriving DecidableEq

/-- `repr` of a list. -/
def Python.reprList (py : Python) (l : List Text) : Text :=
  '[' :: ((l.map py.repr).intersperse [',', ' ']).flatten ++ [']']

/-- The length of a stop string in tokens, or in characters without a tokenizer. -/
def stopStrLen (tokenizer : Option Tokenizer) (s : Text) : ℕ :=
  match tokenizer with
  | some tk => (tk.encode s).length
  | none => s.length

/-- `normalize` for the stop strings. -/
def normalizeStopStrs (tokenizer : Option Tokenizer) :
    Option StopArg → Except Text (List Text × ℕ)
  | none => .ok ([], 0)
  | some arg =>
    let stops := arg.toList
    if 32 < stops.length then
      .error s!"at most 32 stop strings are allowed, got {stops.length}".toList
    else .ok (stops, (stops.map (stopStrLen tokenizer)).foldl max 0)

/-- `get_max_seq_length` of each pattern in turn, and the greatest of them. -/
def maxSeqLength (parse : Text → Except Text (List Node)) : ℕ → List Text → Except Text ℕ
  | n, [] => .ok n
  | n, regex :: regexes =>
    let bytes := (Utf8.encode regex).length
    if 256 < bytes then
      .error s!"stop_regex is {bytes} bytes, over the 256-byte limit".toList
    else
      match parse regex with
      | .error e => .error e
      | .ok tree => maxSeqLength parse (max n (maxLengthFromSubpattern tree)) regexes

variable (parse : Text → Except Text (List Node))

/-- `normalize` for the stop regexes. -/
def normalizeStopRegexes :
    Option StopArg → Except Text (List Text × ℕ)
  | none => .ok ([], 0)
  | some arg =>
    let regexes := arg.toList
    if 32 < regexes.length then
      .error s!"at most 32 stop_regex patterns are allowed, got {regexes.length}".toList
    else (maxSeqLength parse 0 regexes).map fun n => (regexes, n)

/-- `raise_if_tokenizer_required`. -/
def raiseIfTokenizerRequired (py : Python) (tokenizer : Option Tokenizer)
    (stopStrs stopRegexStrs : List Text) (minNewTokens : ℕ) : Except Text Unit :=
  let unavailable := " is unavailable when skip_tokenizer_init=True ".toList
  let matching := "(requires tokenizer to decode tokens to text for matching).".toList
  if tokenizer.isSome then .ok ()
  else if stopStrs ≠ [] then
    .error ("stop=".toList ++ py.reprList stopStrs ++ unavailable ++ matching)
  else if stopRegexStrs ≠ [] then
    .error ("stop_regex=".toList ++ py.reprList stopRegexStrs ++ unavailable ++ matching)
  else if 0 < minNewTokens then
    .error (s!"min_new_tokens={minNewTokens}".toList ++ unavailable ++
      "(requires tokenizer for eos_token_id).".toList)
  else .ok ()

/-- `SamplingParams.normalize`. -/
def normalize (py : Python) (parse : Text → Except Text (List Node))
    (tokenizer : Option Tokenizer) (args : StopArgs) : Except Text Stops := do
  let strs ← normalizeStopStrs tokenizer args.stop
  let regexes ← normalizeStopRegexes parse args.stopRegex
  raiseIfTokenizerRequired py tokenizer strs.1 regexes.1 args.minNewTokens
  return ⟨strs.1, strs.2, regexes.1, regexes.2⟩

/-- The request's stops. -/
def Req.stopsOf (r : Req) : Stops :=
  ⟨r.samplingParams.stopStrs, r.samplingParams.stopStrMaxLen, r.samplingParams.stopRegexStrs,
    r.samplingParams.stopRegexMaxLen⟩

/-! ## Finding -/

namespace Req
variable {py : Python} {r : Req} {s x : Text}

lemma finished_cap (h : r.finished = true) : r.capFinishedLenAtMaxNewTokens.finished = true := by
  unfold capFinishedLenAtMaxNewTokens
  split
  · split
    · rfl
    · exact h
  · exact h

lemma finished_finishByTokenOrLength {ids : List ℤ} (h : r.finished = true)
    (hne : r.outputIds ≠ []) : (r.finishByTokenOrLength ids).finished = true := by
  rw [finishByTokenOrLength]
  cases hc : r.checkTokenBasedFinish ids with
  | some r' =>
    rw [checkTokenBasedFinish] at hc
    split at hc
    · cases hc
    · obtain ⟨p, -, rfl⟩ := map_eq_some_iff.1 hc
      exact finished_cap rfl
  | none =>
    grind [finished, getLast?_eq_some_getLast]

/-- What the search for stops leaves decides, unless the request is finished before. -/
lemma finished_of_check (hne : r.outputIds ≠ [])
    (h : (r.checkStrBasedFinish py 1).1.finished = true)
    (hids : (r.checkStrBasedFinish py 1).1.outputIds = r.outputIds) :
    (r.updateFinishState py 1).finished = true := by
  unfold updateFinishState
  split
  · next hfin => exact hfin
  · split
    · rfl
    · dsimp only
      split
      · next r' hr' =>
        obtain ⟨p, -, rfl⟩ := map_eq_some_iff.1 hr'
        exact finished_cap rfl
      · grind [finished_cap, finished_finishByTokenOrLength]

/-- A stop string in the window finishes the request. -/
lemma finished_of_infix (hne : r.outputIds ≠ []) (hs : s ∈ r.samplingParams.stopStrs)
    (h : s <:+: r.tailStr 1) : (r.updateFinishState py 1).finished = true := by
  obtain ⟨s', hs'⟩ : ∃ s', (r.samplingParams.stopStrs.find? fun s =>
      decide (s <:+: r.tailStr 1)) = some s' :=
    isSome_iff_exists.1 (find?_isSome.2 ⟨s, hs, decide_eq_true h⟩)
  refine finished_of_check hne ?_ ?_ <;>
    rw [checkStrBasedFinish, checkStopStrs_eq, hs', map_some]
  rfl

lemma finished_checkStopRegexes {tail : Text} {regexes : List Text} (hx : x ∈ regexes)
    (h : py.search x tail = .ok true) :
    (checkStopRegexes py r 1 tail regexes).1.finished = true := by
  induction regexes with
  | nil => exact absurd hx not_mem_nil
  | cons y ys ih =>
    rw [checkStopRegexes]
    split
    · rfl
    · rfl
    · grind

lemma outputIds_checkStopRegexes (tail : Text) (regexes : List Text) :
    (checkStopRegexes py r 1 tail regexes).1.outputIds = r.outputIds := by
  induction regexes with
  | nil => rfl
  | cons y ys ih =>
    grind [checkStopRegexes]

/-- A match of a stop regex in the window finishes it too. -/
lemma finished_of_search (hne : r.outputIds ≠ []) (hx : x ∈ r.samplingParams.stopRegexStrs)
    (h : py.search x (r.tailStr 1) = .ok true) : (r.updateFinishState py 1).finished = true := by
  refine finished_of_check hne ?_ ?_ <;> rw [checkStrBasedFinish, checkStopStrs_eq] <;>
    cases r.samplingParams.stopStrs.find? fun s => decide (s <:+: r.tailStr 1)
  · exact finished_checkStopRegexes hx h
  · rfl
  · exact outputIds_checkStopRegexes _ _
  · rfl

end Req

/-! ## The window -/

/-- The text holds a stop string, or a match of a stop regex with a bound below `MAX_LEN`. -/
def HoldsStop (stops : Stops) (text : Text) : Prop :=
  (∃ s ∈ stops.stopStrs, s <:+: text) ∨ ∃ x ∈ stops.stopRegexStrs, ∃ tree, parse x = .ok tree ∧
      maxLengthFromSubpattern tree < maxLen ∧ ∃ i j, Matches text (.seq tree) i j

/-- The number of tokens that are searched. -/
def Stops.tokens (stops : Stops) : ℕ := max (stops.stopStrMaxLen + 1) (stops.stopRegexMaxLen + 1)

/-- A stop in the text of the tokens `ids` begins with a character that begins in the last tokens,
those that are searched.  For a regex the character before it does so too, unless all tokens are
searched. -/
def InWindow (dec : List ℤ → Text) (stops : Stops)
    (ids : List ℤ) : Prop :=
  let start := (dec (ids.take (ids.length - stops.tokens))).length
  (∃ s ∈ stops.stopStrs, ∃ c, start ≤ c ∧ OccursAt s (dec ids) c) ∨
    ∃ x ∈ stops.stopRegexStrs, ∃ tree, parse x = .ok tree ∧
      maxLengthFromSubpattern tree < maxLen ∧ ∃ i j, (start < i ∨ ids.length ≤ stops.tokens) ∧
        Matches (dec ids) (.seq tree) i j

/-- The `n`-th token completes a stop. -/
def NewStop (dec : List ℤ → Text) (stops : Stops)
    (ts : List ℤ) (n : ℕ) : Prop :=
  HoldsStop parse stops (dec (ts.take n)) ∧ ¬ HoldsStop parse stops (dec (ts.take (n - 1)))

/-- A request before its first token, with normalized stops.  Each token is a byte string that is
not empty, decoding is lossy, encoding is a right inverse of it, and `re.search` finds a match if
there is one. -/
structure StopSetting (py : Python) (parse : Text → Except Text (List Node))
    (bytes : ℤ → List UInt8) (args : StopArgs) (r : Req) : Prop where
  outputIds : r.outputIds = []
  normalized : normalize py parse r.tokenizer args = .ok r.stopsOf
  bytes_ne : ∀ t, bytes t ≠ []
  decode : r.decode = lossyDecode bytes
  encode : ∀ tk ∈ r.tokenizer, ∀ s, tk.decode (tk.encode s) = s
  search : ∀ x tree, parse x = .ok tree → maxLengthFromSubpattern tree < maxLen →
    ∀ text i j, Matches text (.seq tree) i j → py.search x text = .ok true

section
variable {py : Python} {parse : Text → Except Text (List Node)} {bytes : ℤ → List UInt8}
  {args : StopArgs} {r : Req} {ts ids : List ℤ}

/-- The window of the output after some tokens. -/
lemma tailStr_push_fresh (hout : r.outputIds = []) (hids : ids ≠ [])
    (hs : r.samplingParams.stopStrs ≠ [] ∨ r.samplingParams.stopRegexStrs ≠ []) :
    (r.push ids).tailStr 1 = r.decode (ids.drop (ids.length - r.stopsOf.tokens)) := by
  have hpos := length_pos_iff.2 hids
  have hL := r.one_le_maxLenTailStr
  have htok : r.stopsOf.tokens = r.maxLenTailStr := rfl
  have hpush : (r.push ids).outputIds = ids := by rw [Req.push, hout]; rfl
  have htail : (r.push ids).stopMatchTailLen 1 = min r.maxLenTailStr ids.length := by
    rw [Req.stopMatchTailLen, hpush, Nat.sub_self, add_zero]
    rfl
  rw [Req.tailStr, if_neg (fun h => hs.elim (fun h' => h' h.1) fun h' => h' h.2), htail, hpush,
    Req.lastN_of_pos (by omega), Req.decode_push, htok]
  congr 2
  omega

/-- The text of the window is the end of the text, after U+FFFD for a character that is cut. -/
lemma lossyDecode_drop (bytes : ℤ → List UInt8) (ids : List ℤ) (n : ℕ) :
    ∃ m, lossyDecode bytes (ids.drop n) = replicate m Utf8.replacement ++
      (lossyDecode bytes ids).drop (lossyDecode bytes (ids.take n)).length := by
  have h := Utf8.decode_suffix ((ids.take n).flatMap bytes) ((ids.drop n).flatMap bytes)
  rw [← flatMap_take_drop] at h
  exact h

/-- **A stop in the window is found.** -/
theorem finished_of_inWindow (h : StopSetting py parse bytes args r) (hids : ids ≠ [])
    (hwin : InWindow parse (lossyDecode bytes) r.stopsOf ids) :
    ((r.push ids).updateFinishState py 1).finished = true := by
  have hne : (r.push ids).outputIds ≠ [] := by
    simp_all [Req.push]
  unfold InWindow at hwin
  obtain ⟨m, hm⟩ := lossyDecode_drop bytes ids (ids.length - r.stopsOf.tokens)
  rcases hwin with ⟨s, hs, c, hc, hocc⟩ | ⟨x, hx, tree, hparse, hbound, i, j, hi, hmatch⟩
  · have hs' : r.samplingParams.stopStrs ≠ [] := ne_nil_of_mem hs
    refine Req.finished_of_infix hne hs ?_
    rw [tailStr_push_fresh h.outputIds hids (.inl hs'), h.decode, hm]
    exact (hocc.infix_drop hc).trans (suffix_append _ _).isInfix
  · have hx' : r.samplingParams.stopRegexStrs ≠ [] := ne_nil_of_mem hx
    refine Req.finished_of_search hne hx ?_
    rw [tailStr_push_fresh h.outputIds hids (.inr hx'), h.decode]
    rcases hi with hi | hall
    · -- the match and the character before it are in the text of the window
      rw [hm]
      set start := (lossyDecode bytes (ids.take (ids.length - r.stopsOf.tokens))).length
      have hle := hmatch.le
      rw [← take_append_drop start (lossyDecode bytes ids)] at hmatch
      have hlen : ((lossyDecode bytes ids).take start).length = start := by
        rw [length_take]
        omega
      obtain ⟨b, -, -, hmatch'⟩ := hmatch.shift hbound (a := i - start) (by omega) (by omega)
      exact h.search x tree hparse hbound _ _ _ hmatch'
    · rw [Nat.sub_eq_zero_of_le hall, drop_zero]
      exact h.search x tree hparse hbound _ _ _ hmatch

/-- **No stop is missed if each one lies in the window when it is complete.** -/
theorem stops_not_missed (h : StopSetting py parse bytes args r)
    (hok : ∀ n, 1 ≤ n → n ≤ ts.length → NewStop parse (lossyDecode bytes) r.stopsOf ts n →
      InWindow parse (lossyDecode bytes) r.stopsOf (ts.take n)) :
    ∀ n, 1 ≤ n → n ≤ ts.length → (∀ j, 1 ≤ j → j < n → (Req.afterEach py r ts j).finished = false) →
      NewStop parse (lossyDecode bytes) r.stopsOf ts n →
      (Req.afterEach py r ts n).finished = true := by
  intro n h1 h2 _ hnew
  refine finished_of_inWindow h ?_ (hok n h1 h2 hnew)
  exact ne_nil_of_length_pos (by rw [length_take]; omega)

end

/-! ## A stop string that is one token -/

/-- A token for each byte, and one for the text `abc`. -/
def abcBytes (t : ℤ) : List UInt8 := if t = 256 then [97, 98, 99] else [UInt8.ofNat t.toNat]

/-- The text `abc` is encoded as its own token, any other text byte by byte. -/
def abcEncode (s : Text) : List ℤ :=
  if s = ['a', 'b', 'c'] then [256] else (Utf8.encode s).map fun b => (b.toNat : ℤ)

lemma lossyDecode_abcEncode (s : Text) : lossyDecode abcBytes (abcEncode s) = s := by
  rw [abcEncode]
  split
  · next h => rw [h]; decide
  · have hb : ∀ b, abcBytes (b.toNat : ℤ) = [b] := by
      intro b
      have hlt := b.toNat_lt
      rw [abcBytes, if_neg (by omega), Int.toNat_natCast, UInt8.ofNat_toNat]
    rw [lossyDecode, flatMap_map]
    simp only [hb]
    rw [flatMap_singleton', Utf8.decode_encode]

/-- A request with the stop string `abc`. -/
def abcReq : Req where
  samplingParams := ⟨10, [['a', 'b', 'c']], 1, [], 0, [], false, false, none⟩
  tokenizer := some ⟨abcEncode, lossyDecode abcBytes, none, []⟩
  eosTokenIds := []
  vocabSize := none
  grammar := none
  outputIds := []
  decodedText := []
  toFinish := none
  finishedReason := none
  finishedLen := none
  tokenizer_of_stops := fun _ h => by cases h
  decodedText_nil := no_text

/-- No pattern is well formed. -/
def noParse (_ : Text) : Except Text (List Node) := .error []

lemma abcReq_setting : StopSetting Req.noRegex noParse abcBytes
    ⟨some (.one ['a', 'b', 'c']), none, 0⟩ abcReq where
  outputIds := rfl
  normalized := rfl
  bytes_ne t := by
    rw [abcBytes]
    split <;> exact cons_ne_nil _ _
  decode := rfl
  encode tk htk s := by
    obtain rfl := mem_some_iff.1 htk
    exact lossyDecode_abcEncode s
  search x tree h := by cases h

lemma holdsStop_abc_iff (text : Text) :
    HoldsStop noParse abcReq.stopsOf text ↔ ['a', 'b', 'c'] <:+: text := by
  constructor
  · rintro (⟨s, hs, h⟩ | ⟨x, hx, -⟩)
    · obtain rfl := mem_singleton.1 hs
      exact h
    · exact absurd hx not_mem_nil
  · exact fun h => .inl ⟨_, mem_singleton_self _, h⟩

/-- The tokens `a`, `b` and `c` complete the stop string, but only the last two are searched. -/
theorem stop_in_three_tokens_missed :
    StopSetting Req.noRegex noParse abcBytes ⟨some (.one ['a', 'b', 'c']), none, 0⟩ abcReq ∧
      NewStop noParse (lossyDecode abcBytes) abcReq.stopsOf [97, 98, 99] 3 ∧
      (∀ j, 1 ≤ j → j < 3 → (Req.afterEach Req.noRegex abcReq [97, 98, 99] j).finished = false) ∧
      (Req.afterEach Req.noRegex abcReq [97, 98, 99] 3).finished = false := by
  refine ⟨abcReq_setting, ⟨?_, ?_⟩, ?_, by decide +kernel⟩
  · rw [holdsStop_abc_iff]
    decide +kernel
  · rw [holdsStop_abc_iff]
    decide +kernel
  · intro j h1 h2
    interval_cases j <;> decide +kernel

/-- A pattern of one character is that character; there are no others. -/
def charParse : Text → Except Text (List Node)
  | [c] => .ok [.char (· == c)]
  | _ => .error []

/-- `re.search` for such patterns. -/
def charSearch : Python := ⟨fun x text => .ok (x.head?.any text.contains), id⟩

/-- As `abcReq`, and with the stop regex `d`. -/
def abcOrDReq : Req :=
  { abcReq with
    samplingParams := ⟨10, [['a', 'b', 'c']], 1, [['d']], 1, [], false, false, none⟩
    tokenizer_of_stops := fun _ h => by cases h }

lemma abcOrDReq_setting : StopSetting charSearch charParse abcBytes
    ⟨some (.one ['a', 'b', 'c']), some (.one ['d']), 0⟩ abcOrDReq where
  outputIds := rfl
  normalized := rfl
  bytes_ne := abcReq_setting.bytes_ne
  decode := rfl
  encode := abcReq_setting.encode
  search x tree hx _ text i j hm := by
    unfold charParse at hx
    split at hx
    · next c =>
      cases hx
      cases hm with
      | cons hone hrest =>
        cases hone with
        | char hc hacc =>
          have hmem := mem_of_getElem? hc
          rw [beq_iff_eq.1 hacc] at hmem
          simpa [charSearch] using hmem
    · cases hx

lemma matches_d {text : Text} {i : ℕ} (h : text[i]? = some 'd') :
    Matches text (.seq [.char (· == 'd')]) i (i + 1) := by
  refine .cons (.char h rfl) (.nil ?_)
  obtain ⟨hlt, -⟩ := List.getElem?_eq_some_iff.1 h
  omega

lemma holdsStop_abcOrD_iff (text : Text) :
    HoldsStop charParse abcOrDReq.stopsOf text ↔ ['a', 'b', 'c'] <:+: text ∨ 'd' ∈ text := by
  constructor
  · rintro (⟨s, hs, h⟩ | ⟨x, hx, tree, htree, -, i, j, hm⟩)
    · obtain rfl := mem_singleton.1 hs
      exact .inl h
    · obtain rfl := mem_singleton.1 hx
      have hfound := abcOrDReq_setting.search _ tree htree (by cases htree; decide) text i j hm
      exact .inr (by simpa [charSearch] using hfound)
  · rintro (h | h)
    · exact .inl ⟨_, mem_singleton_self _, h⟩
    · obtain ⟨i, hi⟩ := mem_iff_getElem?.1 h
      exact .inr ⟨_, mem_singleton_self _, _, rfl, by decide, i, i + 1, matches_d hi⟩

/-- The stop string as one token after another, and the regex after two others, one of which is not
searched any more. -/
theorem stops_in_window_found :
    (Req.afterEach charSearch abcOrDReq [97, 256] 2).finished = true ∧
      (Req.afterEach charSearch abcOrDReq [97, 97, 100] 3).finished = true := by
  constructor
  · refine stops_not_missed abcOrDReq_setting (fun n h1 h2 hnew => ?_) 2 (by decide) (by decide) ?_
      ⟨?_, ?_⟩
    · simp only [length_cons, length_nil] at h2
      interval_cases n
      · exact absurd ((holdsStop_abcOrD_iff _).1 hnew.1) (by decide +kernel)
      · exact .inl ⟨_, mem_singleton_self _, 1, by decide +kernel, by decide +kernel⟩
    · intro j h1 h2
      interval_cases j
      decide +kernel
    · rw [holdsStop_abcOrD_iff]
      decide +kernel
    · rw [holdsStop_abcOrD_iff]
      decide +kernel
  · refine stops_not_missed abcOrDReq_setting (fun n h1 h2 hnew => ?_) 3 (by decide) (by decide) ?_
      ⟨?_, ?_⟩
    · simp only [length_cons, length_nil] at h2
      interval_cases n
      · exact absurd ((holdsStop_abcOrD_iff _).1 hnew.1) (by decide +kernel)
      · exact absurd ((holdsStop_abcOrD_iff _).1 hnew.1) (by decide +kernel)
      · exact .inr ⟨_, mem_singleton_self _, _, rfl, by decide, 2, 3, .inl (by decide +kernel),
          matches_d (by decide +kernel)⟩
    · intro j h1 h2
      interval_cases j <;> decide +kernel
    · rw [holdsStop_abcOrD_iff]
      decide +kernel
    · rw [holdsStop_abcOrD_iff]
      decide +kernel

end Sglang.Output
