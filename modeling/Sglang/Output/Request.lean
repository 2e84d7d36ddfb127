import Mathlib.Data.List.DropRight
import Sglang.Lib.Text

/-!
# When a request is finished

After each step of the scheduler `Req.update_finish_state` decides whether the tokens just accepted
finish the request: an id outside the vocabulary, a stop string, a stop regex, a stop token, the
length budget, or the grammar, in this order.  A stop string is looked for in the decoded text of
the last few tokens only (`tailStr`), and the position of the token that completes it is found by
decoding longer and longer beginnings of this window (`locateStrStopFinishedLen`).

A text is a list of characters.  The sets of token ids are lists, in the order in which Python
iterates over them.  What the tokenizer and Python's `re` do is a parameter.
-/

namespace Sglang.Output

abbrev Text := List Char

/-- Python's `l[-n:]`. -/
def lastN {α : Type} (n : ℕ) (l : List α) : List α := if n = 0 then l else l.drop (l.length - n)

/-! ## Data -/

/-- What the code asks of Python: `re.search`, which may fail on the pattern, and `repr`. -/
structure Python where
  search : Text → Text → Except Text Bool
  repr : Text → Text

structure Tokenizer where
  encode : Text → List ℤ
  decode : List ℤ → Text
  eosTokenId : Option ℤ
  additionalStopTokenIds : List ℤ

/-- The reasons of `schedule_batch.py` for which a request is finished. -/
inductive FinishReason
  | matchedToken (matched : ℤ)
  | matchedStr (matched : Text)
  | matchedRegex (matched : Text)
  | length (length : ℕ)
  | abort (message : Text) (statusCode : Option ℕ) (errType : Option Text)
  deriving DecidableEq, Repr

/-- The class of a finish reason. -/
inductive FinishKind
  | matchedToken | matchedStr | matchedRegex | length | abort
  deriving DecidableEq, Repr

def FinishReason.kind : FinishReason → FinishKind
  | .matchedToken _ => .matchedToken
  | .matchedStr _ => .matchedStr
  | .matchedRegex _ => .matchedRegex
  | .length _ => .length
  | .abort _ _ _ => .abort

structure SamplingParams where
  maxNewTokens : ℕ
  stopStrs : List Text
  stopStrMaxLen : ℕ
  stopRegexStrs : List Text
  stopRegexMaxLen : ℕ
  stopTokenIds : List ℤ
  ignoreEos : Bool
  noStopTrim : Bool
  streamInterval : Option ℕ

/-- A request, as far as its end is concerned.  `grammar` holds what `is_terminated` answers. -/
structure Req where
  samplingParams : SamplingParams
  tokenizer : Option Tokenizer
  eosTokenIds : List ℤ
  vocabSize : Option ℤ
  grammar : Option Bool
  outputIds : List ℤ
  decodedText : Text
  toFinish : Option FinishReason
  finishedReason : Option FinishReason
  finishedLen : Option ℕ
  /-- `raise_if_tokenizer_required` refuses such a request otherwise. -/
  tokenizer_of_stops :
    samplingParams.stopStrs ≠ [] ∨ samplingParams.stopRegexStrs ≠ [] → tokenizer ≠ none
  /-- Only `__init__` assigns `decoded_text`. -/
  decodedText_nil : decodedText = []

/-- Nothing is decoded yet. -/
lemma no_text : ([] : List Char) = [] := rfl

namespace Req
variable (r : Req)

def finished : Bool := r.finishedReason.isSome

/-- `tokenizer.decode`; it is asked for only where there is a tokenizer. -/
def decode (ids : List ℤ) : Text :=
  match r.tokenizer with
  | some tk => tk.decode ids
  | none => []

/-- `output_ids_through_stop`. -/
def outputIdsThroughStop : List ℤ :=
  match r.finishedLen with
  | some n => r.outputIds.take n
  | none => r.outputIds

/-! ## Stop strings and stop regexes -/

/-- The number of tokens that a stop may reach back over, `max_len_tail_str`. -/
def maxLenTailStr : ℕ :=
  max (r.samplingParams.stopStrMaxLen + 1) (r.samplingParams.stopRegexMaxLen + 1)

/-- `_stop_match_tail_len`. -/
def stopMatchTailLen (newAcceptedLen : ℕ) : ℕ :=
  min (r.maxLenTailStr + (newAcceptedLen - 1)) r.outputIds.length

/-- `tail_str`. -/
def tailStr (newAcceptedLen : ℕ) : Text :=
  if r.samplingParams.stopStrs = [] ∧ r.samplingParams.stopRegexStrs = [] then []
  else r.decode (lastN (r.stopMatchTailLen newAcceptedLen) r.outputIds)

/-- `check_match_stop_str_prefix`: the tail holds a stop string or ends with the beginning of
one. -/
def checkMatchStopStrPrefix : Bool :=
  if r.samplingParams.stopStrs = [] then false
  else
    let tail := r.tailStr 1
    if tail = [] then false
    else r.samplingParams.stopStrs.any fun stop =>
      stop ≠ [] && (decide (stop <:+: tail) ||
        (List.range' 1 (min tail.length stop.length)).any fun i =>
          lastN i tail = stop.take i)

/-- `_locate_str_stop_finished_len`. -/
def locateStrStopFinishedLen (newAcceptedLen : ℕ) (matched : Text → Bool) : ℕ :=
  let tailLen := r.stopMatchTailLen newAcceptedLen
  let start := r.outputIds.length - tailLen
  let tokenWindow := r.outputIds.drop start
  let first := max 1 (tokenWindow.length + 1 - newAcceptedLen)
  match (List.range' first (tokenWindow.length - first)).find? fun tokenCount =>
      matched (r.decode (tokenWindow.take tokenCount)) with
  | some tokenCount => start + tokenCount
  | none => r.outputIds.length

/-- The loop of `_check_str_based_finish` over the stop strings. -/
def checkStopStrs (r : Req) (newAcceptedLen : ℕ) (tail : Text) : List Text → Option Req
  | [] => none
  | stop :: stops =>
    if stop <:+: tail then
      some { r with
        finishedReason := some (.matchedStr stop)
        finishedLen := some (r.locateStrStopFinishedLen newAcceptedLen fun text =>
          decide (stop <:+: text)) }
    else if stop <:+: r.decodedText then
      some { r with finishedReason := some (.matchedStr stop) }
    else r.checkStopStrs newAcceptedLen tail stops

/-- The loop of `_check_str_based_finish` over the stop regexes.  A pattern that is refused leaves
the loop with the request aborted, and the checks that follow are made all the same. -/
def checkStopRegexes (py : Python) (r : Req) (newAcceptedLen : ℕ) (tail : Text) :
    List Text → Req × Bool
  | [] => (r, false)
  | regex :: regexes =>
    match py.search regex tail with
    | .error e =>
      ({ r with finishedReason := some (.abort
          ("invalid stop_regex ".toList ++ py.repr regex ++ ": ".toList ++ e)
          (some 400) (some "BadRequestError".toList)) }, false)
    | .ok true =>
      ({ r with
        finishedReason := some (.matchedRegex regex)
        finishedLen := some (r.locateStrStopFinishedLen newAcceptedLen fun text =>
          (py.search regex text).toOption == some true) }, true)
    | .ok false => checkStopRegexes py r newAcceptedLen tail regexes

/-- `_check_str_based_finish`. -/
def checkStrBasedFinish (py : Python) (r : Req) (newAcceptedLen : ℕ) : Req × Bool :=
  match r.checkStopStrs newAcceptedLen (r.tailStr newAcceptedLen) r.samplingParams.stopStrs with
  | some r' => (r', true)
  | none =>
    r.checkStopRegexes py newAcceptedLen (r.tailStr newAcceptedLen) r.samplingParams.stopRegexStrs

/-! ## Tokens -/

/-- The ids at which the loop of `_check_token_based_finish` stops. -/
def isStopToken (tokenId : ℤ) : Bool :=
  decide (tokenId ∈ r.samplingParams.stopTokenIds) || decide (tokenId ∈ r.eosTokenIds) ||
    match r.tokenizer with
    | some tk =>
      decide (some tokenId = tk.eosTokenId) || decide (tokenId ∈ tk.additionalStopTokenIds)
    | none => false

variable (newAcceptedTokens : List ℤ)

/-- `_check_token_based_finish`. -/
def checkTokenBasedFinish : Option Req :=
  if r.samplingParams.ignoreEos then none
  else
    (newAcceptedTokens.zipIdx.find? fun p => r.isStopToken p.1).map fun p =>
      { r with
        finishedReason := some (.matchedToken p.1)
        finishedLen := some (r.outputIds.length - newAcceptedTokens.length + p.2 + 1) }

/-- An id that the vocabulary does not have. -/
def outOfVocab (tokenId : ℤ) : Bool :=
  decide (tokenId < 0) || r.vocabSize.any fun n => decide (n ≤ tokenId)

/-- `_check_vocab_boundary_finish`: the id is replaced by one that stops the request. -/
def checkVocabBoundaryFinish : Option Req :=
  (newAcceptedTokens.zipIdx.find? fun p => r.outOfVocab p.1).map fun p =>
    let offset := r.outputIds.length - newAcceptedTokens.length + p.2
    let ids := match r.samplingParams.stopTokenIds with
      | t :: _ => r.outputIds.set offset t
      | [] => r.outputIds
    let ids := match r.eosTokenIds with
      | t :: _ => ids.set offset t
      | [] => ids
    { r with
      outputIds := ids
      finishedReason := some (.matchedStr "NaN happened".toList)
      finishedLen := some (offset + 1) }

/-! ## The decision -/

/-- `_cap_finished_len_at_max_new_tokens`. -/
def capFinishedLenAtMaxNewTokens : Req :=
  match r.finishedLen with
  | some n =>
    if r.samplingParams.maxNewTokens < n then
      { r with
        finishedReason := some (.length r.samplingParams.maxNewTokens)
        finishedLen := some r.samplingParams.maxNewTokens }
    else r
  | none => r

/-- The checks of `update_finish_state` after those for stop strings and regexes. -/
def finishByTokenOrLength : Req :=
  match r.checkTokenBasedFinish newAcceptedTokens with
  | some r' => r'.capFinishedLenAtMaxNewTokens
  | none =>
    if r.samplingParams.maxNewTokens ≤ r.outputIds.length then
      { r with
        finishedReason := some (.length r.samplingParams.maxNewTokens)
        finishedLen := some r.samplingParams.maxNewTokens }
    else if r.grammar = some true then
      { r with finishedReason := r.outputIds.getLast?.map .matchedToken }
    else r

/-- `update_finish_state`. -/
def updateFinishState (py : Python) (r : Req) (newAcceptedLen : ℕ) : Req :=
  if r.finished then r
  else match r.toFinish with
  | some reason => { r with finishedReason := some reason, toFinish := none }
  | none =>
    let newAcceptedTokens := lastN newAcceptedLen r.outputIds
    match r.checkVocabBoundaryFinish newAcceptedTokens with
    | some r' => r'.capFinishedLenAtMaxNewTokens
    | none =>
      match r.checkStrBasedFinish py newAcceptedLen with
      | (r', true) => r'.capFinishedLenAtMaxNewTokens
      | (r', false) => r'.finishByTokenOrLength newAcceptedTokens

/-- `output_ids.extend(ids)`. -/
def push (ids : List ℤ) : Req := { r with outputIds := r.outputIds ++ ids }

end Req
end Sglang.Output
