import Sglang.Output.Request
import Sglang.Lib.Utf8

/-!
# Incremental detokenization

The scheduler sends the tokens of a request in messages; `DetokenizerManager` turns each message
into the piece of text that is new.  It decodes the tokens since the last point at which the text
was clean, together with a few tokens before them, and cuts off what these give alone.  If the new
text ends in U+FFFD a character may be incomplete: then only a printable beginning is sent, the
tokens are decoded again with the next message, and `sentOffset` remembers how far the text has been
sent.

`decodeItem` is what `_decode_batch_token_id_output` does for one request of a batch, and
`decodeAll` what it does for a sequence of messages of several requests.
-/

namespace Sglang.Output
open Lib

/-! ## Printable text -/

/-- `_is_chinese_char`. -/
def isChineseChar (c : Char) : Bool :=
  let cp := c.toNat
  (0x4E00 ≤ cp && cp ≤ 0x9FFF) || (0x3400 ≤ cp && cp ≤ 0x4DBF) ||
    (0x20000 ≤ cp && cp ≤ 0x2A6DF) || (0x2A700 ≤ cp && cp ≤ 0x2B73F) ||
    (0x2B740 ≤ cp && cp ≤ 0x2B81F) || (0x2B820 ≤ cp && cp ≤ 0x2CEAF) ||
    (0xF900 ≤ cp && cp ≤ 0xFAFF) || (0x2F800 ≤ cp && cp ≤ 0x2FA1F)

/-- `text[:text.rfind(" ") + 1]`. -/
def upToLastSpace (text : Text) : Text := text.rdropWhile fun c => decide (c ≠ ' ')

/-- `find_printable_text`. -/
def findPrintableText (text : Text) : Text :=
  if text.getLast? = some '\n' then text
  else if text.getLast?.any isChineseChar then text
  else if text.dropLast.getLast?.any isChineseChar then text.dropLast
  else upToLastSpace text

/-! ## Messages and states -/

/-- The part of a `BatchTokenIDOutput` that belongs to one request. -/
structure Item where
  rid : ℕ
  decodedText : Text
  decodeIds : List ℤ
  readOffset : ℕ
  finishedReason : Option FinishReason
  noStopTrim : Bool

/-- The detokenizer: the decoding of token ids under the request's flags, and its settings. -/
structure Detokenizer where
  decode : List ℤ → Text
  vocabSize : Option ℤ
  isToolCallParserGptOss : Bool

structure DecodeStatus where
  decodedText : Text
  decodeIds : List ℤ
  surrOffset : ℕ
  readOffset : ℕ
  sentOffset : ℕ
  decodedTextLen : ℕ
  decodedTextChunks : List Text

namespace DecodeStatus

/-- `append_decoded_text`. -/
def appendDecodedText (s : DecodeStatus) (text : Text) : DecodeStatus :=
  if text = [] then s
  else { s with
    decodedTextChunks := s.decodedTextChunks ++ [text]
    decodedTextLen := s.decodedTextLen + text.length }

/-- `get_decoded_text`. -/
def getDecodedText (s : DecodeStatus) : Text := s.decodedText ++ s.decodedTextChunks.flatten

end DecodeStatus

/-- The string that a finish reason names as matched, if it is not empty. -/
def FinishReason.matchedText : FinishReason → Option Text
  | .matchedStr s | .matchedRegex s => if s = [] then none else some s
  | _ => none

/-- `trim_matched_stop` on a text. -/
def trimMatchedStopText (output : Text) (reason : Option FinishReason) (noStopTrim : Bool) : Text :=
  match reason.bind FinishReason.matchedText with
  | none => output
  | some matched =>
    match find matched output with
    | none => output
    | some pos => if noStopTrim then output.take (pos + matched.length) else output.take pos

namespace Detokenizer
variable (d : Detokenizer)

/-- `trim_matched_stop` on token ids.  The id `0` counts as no match. -/
def trimMatchedStopIds (output : List ℤ) (reason : Option FinishReason)
    (noStopTrim : Bool) : List ℤ :=
  match reason with
  | some (.matchedToken matched) =>
    if matched = 0 ∨ noStopTrim = true then output
    else if output.getLast? = some 200012 ∧ d.isToolCallParserGptOss = true then output
    else output.dropLast
  | _ => output

/-- `_clamp_decode_ids`. -/
def clampDecodeIds (ids : List ℤ) : List ℤ :=
  ids.map fun t =>
    if 0 ≤ t ∧ ∀ hi ∈ d.vocabSize, hi = 0 ∨ t < hi then t else 0

/-- The state that a message is decoded in: a new one, or the old one with the message's ids. -/
def receive (status : Option DecodeStatus) (item : Item) : DecodeStatus :=
  match status with
  | none =>
    { decodedText := item.decodedText
      decodeIds := d.clampDecodeIds item.decodeIds
      surrOffset := 0
      readOffset := item.readOffset
      sentOffset := 0
      decodedTextLen := item.decodedText.length
      decodedTextChunks := [] }
  | some s => { s with decodeIds := s.decodeIds ++ d.clampDecodeIds item.decodeIds }

/-- `read_text[len(surr_text):]`. -/
def newText (s : DecodeStatus) (item : Item) : Text :=
  let readIds :=
    d.trimMatchedStopIds (s.decodeIds.drop s.surrOffset) item.finishedReason item.noStopTrim
  let surrIds := (s.decodeIds.take s.readOffset).drop s.surrOffset
  (d.decode readIds).drop (d.decode surrIds).length

/-- A text that may be committed. -/
def Clean (text : Text) : Prop := text ≠ [] ∧ text.getLast? ≠ some Utf8.replacement

instance (text : Text) : Decidable (Clean text) := inferInstanceAs (Decidable (_ ∧ _))

/-- One message in `_decode_batch_token_id_output`: the text to send, and the state to keep. -/
def decodeItem (status : Option DecodeStatus) (item : Item) : Text × Option DecodeStatus :=
  let s := d.receive status item
  let newText := d.newText s item
  match item.finishedReason with
  | none =>
    let pending := s.sentOffset - s.decodedTextLen
    if Clean newText then
      let s := s.appendDecodedText newText
      (newText.drop pending, some { s with
        surrOffset := s.readOffset
        readOffset := s.decodeIds.length
        sentOffset := s.decodedTextLen })
    else
      let printable := findPrintableText newText
      (printable.drop pending, some { s with sentOffset := s.decodedTextLen + printable.length })
  | some reason =>
    ((trimMatchedStopText (s.getDecodedText ++ newText) (some reason) item.noStopTrim).drop
      s.sentOffset, none)

/-- The messages of one request, one after the other. -/
def decodeItems (d : Detokenizer) : Option DecodeStatus → List Item → Text
  | _, [] => []
  | status, item :: items =>
    (d.decodeItem status item).1 ++ d.decodeItems (d.decodeItem status item).2 items

/-- The messages of several requests, with the states in `decode_status`. -/
def decodeAll (d : Detokenizer) : (ℕ → Option DecodeStatus) → List Item → List (ℕ × Text)
  | _, [] => []
  | status, item :: items =>
    let out := d.decodeItem (status item.rid) item
    (item.rid, out.1) :: d.decodeAll (Function.update status item.rid out.2) items

/-- What is sent for one request depends on its own messages only. -/
lemma decodeAll_filter (status : ℕ → Option DecodeStatus) (items : List Item)
    (rid : ℕ) :
    (((d.decodeAll status items).filter fun p => p.1 = rid).map Prod.snd).flatten =
      d.decodeItems (status rid) (items.filter fun item => item.rid = rid) := by
  induction items generalizing status with
  | nil => rfl
  | cons item items ih =>
    grind [decodeAll, decodeItems]

end Detokenizer

end Sglang.Output
