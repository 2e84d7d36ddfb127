import Sglang.Lib.Text

/-!
# Splitting off the reasoning

`BaseReasoningFormatDetector` (`parser/reasoning_parser.py`) without `continue_final_message` and
`force_nonempty_content`, over a text at once and over a stream of it.
-/

namespace Sglang.Reasoning
open Lib

abbrev Text := List Char

/-- What the markers of the detectors have in common: none of them begins inside of another or is
the beginning of another. -/
def Apart (tokens : List Text) : Prop :=
  tokens.Nodup ∧ ∀ v ∈ tokens, v ≠ [] ∧
    ∀ w ∈ tokens, (∀ c ∈ v.head?, c ∉ w.tail) ∧ (v <+: w → v = w)

structure Tokens where
  thinkStart : Text
  thinkEnd : Text
  toolStart : Option Text
  apart : Apart ([thinkStart, thinkEnd] ++ toolStart.toList)

def Tokens.all (k : Tokens) : List Text := [k.thinkStart, k.thinkEnd] ++ k.toolStart.toList

structure Options where
  forceReasoning : Bool
  streamReasoning : Bool

structure Result where
  normalText : Text := []
  reasoningText : Text := []
  deriving DecidableEq

def Result.append (a b : Result) : Result :=
  ⟨a.normalText ++ b.normalText, a.reasoningText ++ b.reasoningText⟩

structure State where
  buffer : Text
  inReasoning : Bool
  strippedThinkStart : Bool

variable (k : Tokens) (o : Options)

/-- Where the reasoning ends and the normal text begins: around the end marker, or else in front of
the tool marker. -/
def closing (s : Text) : Option (ℕ × ℕ) :=
  match find k.thinkEnd s with
  | some i => some (i, i + k.thinkEnd.length)
  | none => (k.toolStart.bind fun w => find w s).map fun i => (i, i)

/-! ## At once -/

/-- The loop that strips leading markers. -/
def stripStarts (w : Text) : ℕ → Text → Text
  | 0, s => s
  | n + 1, s => if w <+: s then stripStarts w n (s.drop w.length) else s

/-- `detect_and_parse` -/
def detectAndParse (text : Text) : Result :=
  if ¬ (o.forceReasoning ∨ k.thinkStart <:+: text) then { normalText := text }
  else
    let processed := stripStarts k.thinkStart text.length text
    match closing k processed with
    | some (i, j) => ⟨processed.drop j, processed.take i⟩
    | none => { reasoningText := processed }

/-! ## A stream -/

/-- The loop of `_ends_with_partial_token`. -/
def partialFrom (buffer token : Text) : ℕ → ℕ
  | 0 => 0
  | i + 1 => if buffer.drop (buffer.length - (i + 1)) <+: token then i + 1
    else partialFrom buffer token i

/-- `_ends_with_partial_token` -/
def endsWithPartialToken (buffer token : Text) : ℕ :=
  partialFrom buffer token (min buffer.length (token.length - 1))

/-- The length of the trailing slice that could be a token split across chunks. -/
def holdback (st : State) (s : Text) : ℕ :=
  let tokens := [k.thinkEnd] ++ k.toolStart.toList ++
    if st.strippedThinkStart then [] else [k.thinkStart]
  (tokens.map (endsWithPartialToken s)).foldl max 0

/-- `current_text.replace(token, "", 1)` -/
def removeFirst (w s : Text) : Text :=
  match find w s with
  | some i => s.take i ++ s.drop (i + w.length)
  | none => s

/-- `_parse_streaming_increment_impl` once the opening marker is stripped. -/
def advance (st : State) (s : Text) : State × Result :=
  if st.inReasoning then
    match closing k s with
    | some (i, j) => ({ st with buffer := [], inReasoning := false }, ⟨s.drop j, s.take i⟩)
    | none =>
      if o.streamReasoning then
        let n := s.length - holdback k st s
        ({ st with buffer := s.drop n }, { reasoningText := s.take n })
      else ({ st with buffer := s }, {})
  else ({ st with buffer := [] }, { normalText := s })

/-- `parse_streaming_increment` -/
def parseStreamingIncrement (st : State) (newText : Text) : State × Result :=
  let s := st.buffer ++ newText
  if ∃ w ∈ k.all, s <+: w ∧ w ≠ s then ({ st with buffer := s }, {})
  else if st.strippedThinkStart = false ∧ k.thinkStart <:+: s then
    advance k o { st with inReasoning := true, strippedThinkStart := true }
      (removeFirst k.thinkStart s)
  else advance k o st s

/-- `finish` -/
def finish (st : State) : Result :=
  if st.inReasoning then
    { reasoningText := if k.thinkStart <+: st.buffer then st.buffer.drop k.thinkStart.length
        else st.buffer }
  else { normalText := st.buffer }

def State.start : State := ⟨[], o.forceReasoning, false⟩

/-- The chunks, then `finish`: what was emitted, in order. -/
def streamFrom (st : State) : List Text → Result
  | [] => finish k st
  | c :: cs =>
    let (st, r) := parseStreamingIncrement k o st c
    r.append (streamFrom st cs)

def stream (chunks : List Text) : Result := streamFrom k o (State.start o) chunks

end Sglang.Reasoning
