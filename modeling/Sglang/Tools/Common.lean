import Mathlib.Data.List.DropRight
import Sglang.Lib.Text

/-!
# Parsing tool calls

The types the tool-call parsers share, `FunctionCallParser` around a detector
(`function_call/function_call_parser.py`, `base_format_detector.py`), and the text that `json.dumps`
gives for strings and for objects.
-/

namespace Sglang.Tools
open Lib List

abbrev Text := List Char

/-! ## Strings -/

/-- The characters that `str.strip` strips and `\\s` matches. -/
def isSpace (c : Char) : Bool :=
  let n := c.toNat
  9 ≤ n ∧ n ≤ 13 ∨ 28 ≤ n ∧ n ≤ 32 ∨ n = 133 ∨ n = 160 ∨ n = 5760 ∨ 8192 ≤ n ∧ n ≤ 8202 ∨
    n = 8232 ∨ n = 8233 ∨ n = 8239 ∨ n = 8287 ∨ n = 12288

/-- Whitespace. -/
def Blank (s : Text) : Prop := ∀ c ∈ s, isSpace c = true

def rstrip (s : Text) : Text := s.rdropWhile isSpace

def strip (s : Text) : Text := rstrip (s.dropWhile isSpace)

/-- `str.rstrip(chars)`: the argument is a set of characters. -/
def rstripChars (chars s : Text) : Text := s.rdropWhile fun c => chars.contains c

def removeSuffix (w s : Text) : Text := if w <:+ s then s.take (s.length - w.length) else s

/-- `s.replace(w, "")` -/
def removeAll (w : Text) : ℕ → Text → Text
  | 0, s => s
  | n + 1, s =>
    match find w s with
    | none => s
    | some i => s.take i ++ removeAll w n (s.drop (i + w.length))

/-- `_find_common_prefix` -/
def findCommonPrefix : Text → Text → Text
  | a :: s, b :: t => if a = b then a :: findCommonPrefix s t else []
  | _, _ => []

variable {s : Text}

lemma Blank.not_mem {c : Char} (h : Blank s) (hc : isSpace c = false) : c ∉ s :=
  fun hmem => by rw [h c hmem] at hc; cases hc

variable {p : Char → Bool}

lemma rdropWhile_append_of_ne_nil {t : Text} (h : t.rdropWhile p ≠ []) :
    (s ++ t).rdropWhile p = s ++ t.rdropWhile p := by
  have hne : t.reverse.dropWhile p ≠ [] := by
    simp_all
  rw [rdropWhile, rdropWhile, reverse_append, dropWhile_append,
    if_neg (by simpa using hne), reverse_append, reverse_reverse]

lemma rdropWhile_append_of_eq_nil {t : Text} (h : t.rdropWhile p = []) :
    (s ++ t).rdropWhile p = s.rdropWhile p := by
  have hnil : t.reverse.dropWhile p = [] := by
    simp_all
  rw [rdropWhile, rdropWhile, reverse_append, dropWhile_append, if_pos (by simpa using hnil)]

/-- Nothing is stripped behind a character that is none to be stripped. -/
lemma rdropWhile_eq_self {u : Text} {c : Char} (hc : p c = false) (h : u ++ [c] <:+ s) :
    s.rdropWhile p = s := by
  obtain ⟨a, rfl⟩ := h
  rw [← append_assoc, rdropWhile_concat_neg]
  simp only [hc, Bool.false_eq_true, not_false_eq_true]

lemma removeAll_eq_self {w : Text} (h : ¬ w <:+: s) (n : ℕ) : removeAll w n s = s := by
  cases n with
  | zero => rfl
  | succ n => rw [removeAll, find_eq_none.2 h]

/-! ## Results -/

structure ToolCallItem where
  toolIndex : ℤ
  name : Option Text := none
  parameters : Text
  deriving DecidableEq

structure StreamingParseResult where
  normalText : Text := []
  calls : List ToolCallItem := []
  deriving DecidableEq

/-- A tool of the request: its name, and for each of its parameters the type that
`infer_type_from_json_schema` finds in the schema. -/
structure Tool where
  name : Text
  properties : List (Text × Text)

/-! ## The parser around a detector -/

/-- A detector keeps its buffer and flags in a state; `none` is an exception. -/
structure Detector (σ : Type) where
  parseStreamingIncrement : List Tool → σ → Text → Option (StreamingParseResult × σ)

/-- `BaseFormatDetector.finish`; the detectors here do not override it. -/
def Detector.finish {σ : Type} (_ : Detector σ) (_ : List Tool) (_ : σ) : StreamingParseResult := {}

structure FunctionCallParser (σ : Type) where
  detector : Detector σ
  tools : List Tool

namespace FunctionCallParser
variable {σ : Type} (p : FunctionCallParser σ)

def parseStreamChunk (st : σ) (chunkText : Text) : Option ((Text × List ToolCallItem) × σ) :=
  if p.tools = [] then some ((chunkText, []), st)
  else do
    let (spResult, st') ← p.detector.parseStreamingIncrement p.tools st chunkText
    let finalNormalText := if spResult.normalText ≠ [] then spResult.normalText else []
    if spResult.calls ≠ [] then some ((spResult.normalText, spResult.calls), st')
    else some ((finalNormalText, []), st')

def parseStreamEnd (st : σ) : Text × List ToolCallItem :=
  if p.tools = [] then ([], [])
  else
    let spResult := p.detector.finish p.tools st
    (spResult.normalText, spResult.calls)

/-- The chunks of a stream and then its end: all the normal text and all the calls. -/
def parseStream (st : σ) : List Text → Option (Text × List ToolCallItem)
  | [] => some (p.parseStreamEnd st)
  | c :: cs => do
    let (out, st') ← p.parseStreamChunk st c
    let (text, calls) ← parseStream st' cs
    some (out.1 ++ text, out.2 ++ calls)

lemma parseStreamChunk_eq (htools : p.tools ≠ []) (st : σ) (c : Text) :
    p.parseStreamChunk st c = (p.detector.parseStreamingIncrement p.tools st c).map
        fun r => ((r.1.normalText, r.1.calls), r.2) := by
  rw [parseStreamChunk, if_neg htools]
  cases p.detector.parseStreamingIncrement p.tools st c with
  | none => rfl
  | some r =>
    simp

lemma parseStream_nil (st : σ) : p.parseStream st [] = some ([], []) := by
  rw [parseStream, parseStreamEnd]
  split <;> rfl

lemma parseStream_cons {st st' : σ} {c : Text} {r : StreamingParseResult} (htools : p.tools ≠ [])
    (h : p.detector.parseStreamingIncrement p.tools st c = some (r, st')) (cs : List Text) :
    p.parseStream st (c :: cs) =
      (p.parseStream st' cs).map fun o => (r.normalText ++ o.1, r.calls ++ o.2) := by
  rw [parseStream, p.parseStreamChunk_eq htools, h, Option.map_some, Option.bind_eq_bind,
    Option.bind_some]
  dsimp only
  cases p.parseStream st' cs <;> rfl

end FunctionCallParser

/-! ## The texts of `json.dumps` -/

def hexDigit (n : ℕ) : Char := if n < 10 then Char.ofNat (48 + n) else Char.ofNat (87 + n)

def unicodeEscape (n : ℕ) : Text :=
  '\\' :: 'u' :: [n / 4096 % 16, n / 256 % 16, n / 16 % 16, n % 16].map hexDigit

/-- A character in a JSON string; with `ensure_ascii` those from U+007F on are escaped too, beyond
U+FFFF as a surrogate pair. -/
def escapeChar (ensureAscii : Bool) (c : Char) : Text :=
  if c = '\"' then ['\\', '\"']
  else if c = '\\' then ['\\', '\\']
  else if c = '\n' then ['\\', 'n']
  else if c = '\r' then ['\\', 'r']
  else if c = '\t' then ['\\', 't']
  else if c.toNat = 8 then ['\\', 'b']
  else if c.toNat = 12 then ['\\', 'f']
  else if c.toNat < 32 then unicodeEscape c.toNat
  else if ensureAscii ∧ 126 < c.toNat then
    if c.toNat < 65536 then unicodeEscape c.toNat
    else
      unicodeEscape (55296 + (c.toNat - 65536) / 1024) ++
        unicodeEscape (56320 + (c.toNat - 65536) % 1024)
  else [c]

/-- `json.dumps` of a string. -/
def dumpsStr (ensureAscii : Bool) (s : Text) : Text :=
  '\"' :: s.flatMap (escapeChar ensureAscii) ++ ['\"']

/-- A member of an object, its value as text. -/
def dumpsMember (ensureAscii : Bool) (kv : Text × Text) : Text :=
  dumpsStr ensureAscii kv.1 ++ ": ".toList ++ kv.2

/-- `json.dumps` of a dictionary, its values as texts. -/
def dumpsObject (ensureAscii : Bool) (kvs : List (Text × Text)) : Text :=
  '{' :: intercalate ", ".toList (kvs.map (dumpsMember ensureAscii)) ++ ['}']

/-! ## Dictionaries -/

/-- `d[k] = v`: in place if the key is there. -/
def dictSet {V : Type} (d : List (Text × V)) (k : Text) (v : V) : List (Text × V) :=
  if k ∈ d.map Prod.fst then d.map fun kv => if kv.1 = k then (k, v) else kv
  else d ++ [(k, v)]

lemma dictSet_of_not_mem {V : Type} {d : List (Text × V)} {k : Text} {v : V}
    (h : k ∉ d.map Prod.fst) : dictSet d k v = d ++ [(k, v)] := if_neg h

end Sglang.Tools
