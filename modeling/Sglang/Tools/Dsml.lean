import Sglang.Tools.Common

/-!
# The DSML detectors

`DeepSeekV32Detector` of `function_call/deepseekv32_detector.py` with the tag names of
`deepseekv4_detector.py` and `deepseekv41_detector.py`: `_parse_parameters_from_xml` and
`parse_streaming_increment`.  The regular expressions are searched from the left; within a tag
they leave no choice, since what a repeated class accepts is never what has to follow it.

The functions of the JSON libraries are parameters, without exceptions other than those the source
catches where it calls them, so that its outer `except` is not reached.
-/

namespace Sglang.Tools.Dsml
open Lib

/-! ## Tags -/

def dsmlToken : Text := "｜DSML｜".toList

/-- The tag names after the DSML marker. -/
structure Format where
  toolCallsBlockName : Text
  invokeTagName : Text
  parameterTagName : Text

def deepSeekV32 : Format where
  toolCallsBlockName := "function_calls".toList
  invokeTagName := "invoke".toList
  parameterTagName := "parameter".toList

/-- The names have a leading space. -/
def deepSeekV41 : Format where
  toolCallsBlockName := " calls".toList
  invokeTagName := " invoke".toList
  parameterTagName := " parameter".toList

namespace Format
variable (f : Format)

def botToken : Text := '<' :: dsmlToken ++ f.toolCallsBlockName ++ ['>']
def eotToken : Text := "</".toList ++ dsmlToken ++ f.toolCallsBlockName ++ ['>']
def invokeStartToken : Text := '<' :: dsmlToken ++ f.invokeTagName
def invokeEndToken : Text := "</".toList ++ dsmlToken ++ f.invokeTagName ++ ['>']
def parameterStart : Text := '<' :: dsmlToken ++ f.parameterTagName
def parameterEnd : Text := "</".toList ++ dsmlToken ++ f.parameterTagName ++ ['>']

def prefixParameterEndCall : List Text := ["</".toList, dsmlToken, f.parameterTagName]

def prefixInvokeEndCall : List Text :=
  ["</".toList, dsmlToken, f.invokeTagName.take (f.invokeTagName.length - 3),
    f.invokeTagName.drop (f.invokeTagName.length - 3)]

end Format

/-! ## Regular expressions -/

/-- A literal. -/
def lit (w s : Text) : Option Text := if w <+: s then some (s.drop w.length) else none

/-- `\s+` -/
def spaces (s : Text) : Option Text :=
  if s.takeWhile isSpace = [] then none else some (s.dropWhile isSpace)

/-- `([^"]+)"` -/
def quoted (s : Text) : Option (Text × Text) :=
  let w := s.takeWhile (· ≠ '\"')
  if w = [] then none
  else (lit ['\"'] (s.dropWhile (· ≠ '\"'))).map fun r => (w, r)

/-- `\s+name="([^"]+)"` -/
def attr (name s : Text) : Option (Text × Text) := do
  let s ← spaces s
  let s ← lit (name ++ "=\"".toList) s
  quoted s

/-- `<parameter\s+name="([^"]+)"\s+string="([^"]+)"\s*>` at the beginning of a text: the two groups
and what follows. -/
def matchParameter (f : Format) (s : Text) : Option (Text × Text × Text) := do
  let s ← lit f.parameterStart s
  let (name, s) ← attr "name".toList s
  let (ty, s) ← attr "string".toList s
  let s ← lit ['>'] (s.dropWhile isSpace)
  some (name, ty, s)

/-- A match of `parameter_regex` at the beginning of a text: name, type, value, what follows. -/
def matchWhole (f : Format) (s : Text) : Option (Text × Text × Text × Text) := do
  let (name, ty, s) ← matchParameter f s
  let p ← find f.parameterEnd s
  some (name, ty, s.take p, s.drop (p + f.parameterEnd.length))

/-- The first match in a text. -/
def search {β : Type} (m : Text → Option β) : Text → Option β
  | [] => m []
  | c :: s =>
    match m (c :: s) with
    | some x => some x
    | none => search m s

/-- `re.finditer(parameter_regex, s)`, and what follows the last match. -/
def parameterMatches (f : Format) : ℕ → Text → List (Text × Text × Text) × Text
  | 0, s => ([], s)
  | n + 1, s =>
    match search (matchWhole f) s with
    | none => ([], s)
    | some (name, ty, value, rest) =>
      let (ms, r) := parameterMatches f n rest
      ((name, ty, value) :: ms, r)

/-- `re.search(partial_parameter_regex, s)`: `(.*)$` is the rest of the text. -/
def searchOpen (f : Format) (s : Text) : Option (Text × Text × Text) := search (matchParameter f) s

/-- A match of `invoke_regex`, unpacked. -/
structure InvokeMatch where
  name : Text
  body : Text
  isComplete : Bool
  /-- what follows the match -/
  rest : Text

/-- A text up to where `$` matches: without a newline at the end. -/
def untilDollar (s : Text) : Text := removeSuffix ['\n'] s

/-- `<invoke\s+name="(?P<name>[^"]+)"\s*` at the beginning of a text. -/
def matchInvokeName (f : Format) (s : Text) : Option (Text × Text) := do
  let s ← lit f.invokeStartToken s
  let (name, s) ← attr "name".toList s
  some (name, s.dropWhile isSpace)

/-- `invoke_regex` at the beginning of a text, with `_unpack_invoke_match`. -/
def matchInvoke (f : Format) (s : Text) : Option InvokeMatch := do
  let (name, s) ← matchInvokeName f s
  match lit "/>".toList s with
  | some rest => some ⟨strip name, [], true, rest⟩
  | none =>
    let s ← lit ['>'] s
    match find f.invokeEndToken s with
    | some p => some ⟨strip name, s.take p, true, s.drop (p + f.invokeEndToken.length)⟩
    | none => some ⟨strip name, untilDollar s, false, s.drop (untilDollar s).length⟩

/-! ## Parameters -/

/-- What the detector uses of `json` and `partial_json_parser`; `none` is an error that is
caught. -/
structure Json (V : Type) where
  loads : Text → Option V
  /-- `_partial_json_loads(s, Allow.ALL)[0]` -/
  loadsPrefix : Text → Option V
  /-- `json.dumps(v, ensure_ascii=False)` -/
  dumps : V → Text

variable {V : Type} (js : Json V) (f : Format)

/-- The text of a value in the arguments: that of a JSON value, or of a string. -/
def dumpsValue (v : Option V) (text : Text) : Text :=
  match v with
  | some v => js.dumps v
  | none => dumpsStr false text

/-- A parameter's value as it is written into the arguments. -/
def parameterText (ty value : Text) : Text :=
  if ty = "true".toList then dumpsStr false (strip value)
  else dumpsValue js (js.loads (strip value)) (strip value)

/-- The same for a value that has not been closed. -/
def openParameterText (ty value : Text) : Text :=
  if ty = "true".toList then dumpsStr false (strip value)
  else dumpsValue js (js.loadsPrefix value) (strip value)

/-- `rstrip` with the tokens from the last to the first one. -/
def rstripTokens (tokens : List Text) (s : Text) : Text := tokens.foldr rstripChars s

/-- The parameter at the end of the content that has not been closed. -/
def openParameter (remaining : Text) : Option (Text × Text) :=
  match searchOpen f (rstripTokens f.prefixParameterEndCall remaining) with
  | none => none
  | some (name, ty, value) =>
    if value = [] then none else some (name, openParameterText js ty value)

/-- The parameters from their tags. -/
def parseTags (invokeContent : Text) (allowPartial : Bool) : Text :=
  let (found, remaining) := parameterMatches f invokeContent.length invokeContent
  let parameters := found.foldl (fun d m => dictSet d m.1 (parameterText js m.2.1 m.2.2)) []
  let parameters :=
    match if allowPartial then openParameter js f remaining else none with
    | none => parameters
    | some (name, text) => dictSet parameters name text
  dumpsObject false parameters

def parseParametersFromXml (invokeContent : Text) (allowPartial : Bool) : Text :=
  let stripped := strip invokeContent
  if ['{'] <+: stripped then
    if allowPartial then rstripTokens f.prefixInvokeEndCall stripped
    else if ['}'] <:+ stripped then stripped
    else parseTags js f invokeContent allowPartial
  else parseTags js f invokeContent allowPartial

/-! ## Streaming -/

/-- The state of the detector.  The lists `prev_tool_call_arr` and `streamed_args_for_tool` are
functions here: the source fills them up with `{}` and `""` before it reads them. -/
structure State where
  buffer : Text := []
  currentToolId : ℤ := -1
  currentToolNameSent : Bool := false
  prevArguments : ℕ → Option Text := fun _ => none
  streamedArgs : ℕ → Text := fun _ => []

def hasToolCall (text : Text) : Bool := f.botToken <:+: text ∨ f.invokeStartToken <:+: text

def dsmlMarkers : List Text := ["｜DSML｜".toList, "<｜".toList, "</｜".toList]

def dsmlPrefixes : List Text := ["<".toList, "<｜".toList, "</".toList, "</｜".toList]

def potentiallyDsml (text : Text) : Bool := dsmlMarkers.any fun marker => marker <:+: text

def endsWithPrefix (text : Text) : Bool := dsmlPrefixes.any fun w => w <:+ rstrip text

/-- The text before the first call: up to the last block opening before the invoke, or up to the
invoke. -/
def preambleOf (currentText : Text) (start : ℕ) : Text :=
  let before := currentText.take start
  let callStart :=
    match (List.range (start + 1)).reverse.find? fun i => OccursAt f.botToken before i with
    | some i => i
    | none => start
  removeSuffix "\n\n".toList (currentText.take callStart)

/-- What is sent of the arguments, given those of the last time and what has been sent. -/
def argumentDiff (isToolEnd : Bool) (currentParams : Text) (prevParams : Option Text)
    (sentLen : ℕ) : Text :=
  if isToolEnd then currentParams.drop sentLen
  else
    match prevParams with
    | none => []
    | some prev =>
      if currentParams ≠ prev then
        let common := findCommonPrefix currentParams prev
        if sentLen < common.length then common.drop sentLen else []
      else []

/-- The state for the first tool call. -/
def State.begin (st : State) : State :=
  if st.currentToolId = -1 then
    { st with currentToolId := 0, prevArguments := fun _ => none, streamedArgs := fun _ => [] }
  else st

/-- What one match of `invoke_regex` sends, and the state after it. -/
def sendInvoke (st : State) (m : InvokeMatch) : List ToolCallItem × State :=
  let id := st.currentToolId.toNat
  let nameItem : List ToolCallItem :=
    if st.currentToolNameSent then []
    else [{ toolIndex := st.currentToolId, name := some m.name, parameters := [] }]
  let currentParams := parseParametersFromXml js f m.body (!m.isComplete)
  let diff :=
    argumentDiff m.isComplete currentParams (st.prevArguments id) (st.streamedArgs id).length
  let argsItem : List ToolCallItem :=
    if diff = [] then [] else [{ toolIndex := st.currentToolId, parameters := diff }]
  let st := { st with
    currentToolNameSent := true
    prevArguments := Function.update st.prevArguments id (some currentParams)
    streamedArgs := Function.update st.streamedArgs id (st.streamedArgs id ++ diff) }
  (nameItem ++ argsItem, st)

/-- The start of the first match of `invoke_regex` and the match. -/
def searchInvoke (text : Text) : Option (ℕ × InvokeMatch) :=
  search (fun s => (matchInvoke f s).map fun m => (text.length - s.length, m)) text

/-- The loop over the invokes of the buffer. -/
def invokeLoop : ℕ → State → Text × List ToolCallItem → StreamingParseResult × State
  | 0, st, out => ({ normalText := out.1, calls := out.2 }, st)
  | n + 1, st, out =>
    match searchInvoke f st.buffer with
    | none => ({ normalText := out.1, calls := out.2 }, st)
    | some (start, m) =>
      let preamble := if st.currentToolId = -1 then preambleOf f st.buffer start else out.1
      let (items, st') := sendInvoke js f st.begin m
      let calls := out.2 ++ items
      if m.isComplete then
        invokeLoop n { st' with
          buffer := m.rest
          currentToolId := st'.currentToolId + 1
          currentToolNameSent := false } (preamble, calls)
      else ({ normalText := preamble, calls := calls }, st')

def parseStreamingIncrement (st : State) (newText : Text) : StreamingParseResult × State :=
  let currentText := st.buffer ++ newText
  if ¬ hasToolCall f currentText ∧ ¬ potentiallyDsml currentText ∧ ¬ endsWithPrefix currentText then
    let text := [f.eotToken, f.invokeEndToken].foldl
      (fun text w => removeAll w text.length text) currentText
    ({ normalText := text }, { st with buffer := [] })
  else invokeLoop js f (currentText.length + 1) { st with buffer := currentText } ([], [])

def detector : Detector State where
  parseStreamingIncrement _ st newText := some (parseStreamingIncrement js f st newText)

end Sglang.Tools.Dsml
