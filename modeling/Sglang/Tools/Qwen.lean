import Sglang.Lib.Scanner
import Sglang.Tools.Common

/-!
# The Qwen3-Coder detector

`Qwen3CoderDetector` of `function_call/qwen3_coder_detector.py`: `parse_streaming_increment` with
its cursor over the buffer, and `detect_and_parse` with its regular expressions over the complete
text.

The cursor machine is a `Lib.Scanner`: where the source breaks out of its loop the scanner waits,
and where `json.dumps` raises it fails.  It emits its normal text character by character, so that
what it emits for a stream is one list of events whatever the chunks are.
-/

namespace Sglang.Tools.Qwen
open Lib

/-! ## Markers -/

def toolCallStartToken : Text := "<tool_call>".toList
def toolCallEndToken : Text := "</tool_call>".toList
def toolCallPrefix : Text := "<function=".toList
def functionEndToken : Text := "</function>".toList
def parameterPrefix : Text := "<parameter=".toList
def parameterEndToken : Text := "</parameter>".toList

/-- `possible_tags`, the six markers. -/
def possibleTags : List Text :=
  [toolCallStartToken, toolCallEndToken, toolCallPrefix, functionEndToken, parameterPrefix,
    parameterEndToken]

/-! ## Values -/

/-- What the detector uses of Python: values of type `V` and the functions that read and write
them.  `none` is an exception. -/
structure Builtins (V : Type) where
  lower : Text → Text
  null : V
  str : Text → V
  bool : Bool → V
  int : Text → Option V
  float : Text → Option V
  isInteger : V → Bool
  truncate : V → V
  jsonLoads : Text → Option V
  literalEval : Text → Option V
  /-- `json.dumps(v, ensure_ascii=False)` -/
  dumps : V → Option Text

variable {V : Type} (py : Builtins V)

/-- The properties of the first tool of that name. -/
def getArgumentsConfig (funcName : Option Text) (tools : List Tool) : List (Text × Text) :=
  match tools.find? fun tool => funcName = some tool.name with
  | some tool => tool.properties
  | none => []

def isStringType (ty : Text) : Bool :=
  ["string".toList, "str".toList, "text".toList, "varchar".toList, "char".toList,
    "enum".toList].contains ty

def isIntegerType (ty : Text) : Bool :=
  ["int".toList, "uint".toList, "long".toList, "short".toList, "unsigned".toList].any
    fun w => w.isPrefixOf ty

def isNumberType (ty : Text) : Bool :=
  ["num".toList, "float".toList].any fun w => w.isPrefixOf ty

def isBooleanType (ty : Text) : Bool :=
  ["boolean".toList, "bool".toList, "binary".toList].contains ty

def isContainerType (ty : Text) : Bool :=
  ["object".toList, "array".toList, "arr".toList].contains ty ||
    ["dict".toList, "list".toList].any fun w => w.isPrefixOf ty

def convertNumber (paramValue : Text) : V :=
  match py.float paramValue with
  | none => py.str paramValue
  | some x =>
    let maybeConvert := !(paramValue.contains '.' || (py.lower paramValue).contains 'e')
    if maybeConvert && py.isInteger x then py.truncate x else x

def convertParamValue (paramValue paramName : Text) (paramConfig : List (Text × Text)) : V :=
  if py.lower paramValue = "null".toList then py.null
  else
    match paramConfig.lookup paramName with
    | none => py.str paramValue
    | some paramType =>
      if isStringType paramType then py.str paramValue
      else if isIntegerType paramType then (py.int paramValue).getD (py.str paramValue)
      else if isNumberType paramType then convertNumber py paramValue
      else if isBooleanType paramType then py.bool (py.lower paramValue = "true".toList)
      else
        match if isContainerType paramType then py.jsonLoads paramValue else none with
        | some v => v
        | none => (py.literalEval paramValue).getD (py.str paramValue)

/-- A value without one newline before it and one after it. -/
def cleanup (rawValue : Text) : Text :=
  let value := if ['\n'] <+: rawValue then rawValue.drop 1 else rawValue
  if ['\n'] <:+ value then value.dropLast else value

/-! ## The end of a parameter -/

/-- The candidate with the smaller position, the first one if they are equal. -/
def earlier : Option (ℕ × ℕ) → Option (ℕ × ℕ) → Option (ℕ × ℕ)
  | none, b => b
  | some a, none => some a
  | some a, some b => if b.1 < a.1 then some b else some a

/-- Where a parameter's value ends, and the length of the marker that is consumed with it. -/
def bestCand (rest : Text) : Option (ℕ × ℕ) :=
  earlier
    (earlier ((find parameterEndToken rest).map fun i => (i, parameterEndToken.length))
      ((find parameterPrefix rest).map fun i => (i, 0)))
    ((find functionEndToken rest).map fun i => (i, 0))

/-! ## Streaming -/

structure State where
  currentToolId : ℤ := -1
  currentToolNameSent : Bool := false
  currentToolParamCount : ℕ := 0
  jsonStarted : Bool := false
  isInsideToolCall : Bool := false
  currentFuncName : Option Text := none
  deriving DecidableEq

/-- What is emitted: a character of the normal text, or a tool call item. -/
inductive Event
  | char (c : Char)
  | call (item : ToolCallItem)
  deriving DecidableEq

variable (st : State)

/-- Text outside of a tool call is normal text, text inside of one is dropped. -/
def State.plain (text : Text) : List Event := if st.isInsideToolCall then [] else text.map .char

/-- The opening brace, if it has not been sent yet. -/
def State.openJson : List Event :=
  if st.jsonStarted then []
  else [.call { toolIndex := st.currentToolId, parameters := ['{'] }]

/-- `<function=NAME>` -/
def moveFunction (body : Text) : ScanMove State Char Event :=
  match find ['>'] body with
  | none => .wait
  | some endAngle =>
    let funcName := body.take endAngle
    let st' := { st with
      currentToolId := st.currentToolId + 1
      currentToolNameSent := true
      currentToolParamCount := 0
      jsonStarted := false
      currentFuncName := some funcName }
    .go st' (body.drop (endAngle + 1))
      [.call { toolIndex := st'.currentToolId, name := some funcName, parameters := [] }]

/-- `<parameter=NAME>VALUE` with the end of the value. -/
def moveParameter (tools : List Tool) (st : State) (body : Text) : ScanMove State Char Event :=
  match find ['>'] body with
  | none => .wait
  | some nameEnd =>
    let paramName := body.take nameEnd
    let restOfSlice := body.drop (nameEnd + 1)
    match bestCand restOfSlice with
    | none => .wait
    | some (endPos, endTokenLen) =>
      let paramConfig := getArgumentsConfig st.currentFuncName tools
      let convertedVal :=
        convertParamValue py (cleanup (restOfSlice.take endPos)) paramName paramConfig
      match py.dumps convertedVal with
      | none => .fail
      | some value =>
        let jsonKeyVal := dumpsMember true (paramName, value)
        let fragment :=
          if 0 < st.currentToolParamCount then ", ".toList ++ jsonKeyVal else jsonKeyVal
        .go { st with
              jsonStarted := true
              currentToolParamCount := st.currentToolParamCount + 1 }
          (restOfSlice.drop (endPos + endTokenLen))
          (st.openJson ++ [.call { toolIndex := st.currentToolId, parameters := fragment }])

/-- `</function>` -/
def moveFunctionEnd (rest : Text) : ScanMove State Char Event :=
  .go { st with jsonStarted := true, currentFuncName := none } rest
    (st.openJson ++ [.call { toolIndex := st.currentToolId, parameters := ['}'] }])

/-- Text up to the next `<`, or a `<` that no marker can begin with. -/
def moveText (currentSlice : Text) : ScanMove State Char Event :=
  let segment := currentSlice.takeWhile (· ≠ '<')
  if segment ≠ [] then .go st (currentSlice.dropWhile (· ≠ '<')) (st.plain segment)
  else if possibleTags.any fun tag => currentSlice.isPrefixOf tag then .wait
  else .go st (currentSlice.drop 1) (st.plain ['<'])

/-- The body of the loop on `current_slice`. -/
def move (tools : List Tool) (st : State) (currentSlice : Text) : ScanMove State Char Event :=
  if currentSlice = [] then .wait
  else if toolCallStartToken <+: currentSlice then
    .go { st with isInsideToolCall := true } (currentSlice.drop toolCallStartToken.length) []
  else if toolCallPrefix <+: currentSlice then
    moveFunction st (currentSlice.drop toolCallPrefix.length)
  else if parameterPrefix <+: currentSlice then
    moveParameter py tools st (currentSlice.drop parameterPrefix.length)
  else if functionEndToken <+: currentSlice then
    moveFunctionEnd st (currentSlice.drop functionEndToken.length)
  else if toolCallEndToken <+: currentSlice then
    .go { st with isInsideToolCall := false } (currentSlice.drop toolCallEndToken.length) []
  else moveText st currentSlice

variable {st st' : State} {r : Text} {ev : List Event} {body : Text}

lemma moveFunction_consumes (h : moveFunction st body = .go st' r ev) :
    r.length ≤ body.length := by
  grind [moveFunction]

variable {tools : List Tool}

lemma moveParameter_consumes (h : moveParameter py tools st body = .go st' r ev) :
    r.length ≤ body.length := by
  rw [moveParameter] at h
  split at h
  · cases h
  · grind

variable {s : Text}

lemma moveText_consumes (hs : s ≠ []) (h : moveText st s = .go st' r ev) :
    r.length < s.length := by
  grind [moveText, List.takeWhile_append_dropWhile, List.length_pos_of_ne_nil]

/-- What follows a word that is not empty is shorter than the text. -/
lemma length_drop_lt_of_isPrefix {w : Text} (hw : 0 < w.length) (h : w <+: s) :
    (s.drop w.length).length < s.length := by
  grind

lemma move_consumes (h : move py tools st s = .go st' r ev) : r.length < s.length := by
  unfold move at h
  split_ifs at h with hnil hstart hfun hpar hfend htend
  · injection h with _ hr _
    exact hr ▸ length_drop_lt_of_isPrefix (by decide) hstart
  · exact (moveFunction_consumes h).trans_lt (length_drop_lt_of_isPrefix (by decide) hfun)
  · exact (moveParameter_consumes py h).trans_lt (length_drop_lt_of_isPrefix (by decide) hpar)
  · injection h with _ hr _
    exact hr ▸ length_drop_lt_of_isPrefix (by decide) hfend
  · injection h with _ hr _
    exact hr ▸ length_drop_lt_of_isPrefix (by decide) htend
  · exact moveText_consumes hnil h

variable (tools)

/-- The machine of `parse_streaming_increment`. -/
def scanner : Scanner State Char Event where
  move := move py tools
  consumes := move_consumes py

def Event.text : Event → Text
  | .char c => [c]
  | .call _ => []

def Event.calls : Event → List ToolCallItem
  | .char _ => []
  | .call item => [item]

/-- The normal text among the events. -/
def normalText (ev : List Event) : Text := ev.flatMap Event.text

/-- The calls among the events. -/
def callsOf (ev : List Event) : List ToolCallItem := ev.flatMap Event.calls

/-- The state of the detector between two chunks: the machine's state and `_buffer`. -/
structure Buffered where
  st : State := {}
  buffer : Text := []

def parseStreamingIncrement (d : Buffered) (newText : Text) :
    Option (StreamingParseResult × Buffered) :=
  if d.buffer ++ newText = [] then some ({}, d)
  else
    ((scanner py tools).scan d.st (d.buffer ++ newText)).map fun o =>
      ({ normalText := normalText o.events, calls := callsOf o.events }, ⟨o.st, o.rest⟩)

def detector : Detector Buffered where
  parseStreamingIncrement := parseStreamingIncrement py

/-! ## The complete text -/

/-- All matches of a regular expression of the form `start(.*?)stop`: the groups.  `stop` gives for
the text after `start` the length of the group and that of what is consumed after it. -/
def findall (start : Text) (stop : Text → Option (ℕ × ℕ)) : ℕ → Text → List Text
  | 0, _ => []
  | fuel + 1, text =>
    match find start text with
    | none => []
    | some i =>
      let rest := text.drop (i + start.length)
      match stop rest with
      | none => []
      | some (p, l) => rest.take p :: findall start stop fuel (rest.drop (p + l))

/-- `<tool_call>(.*?)</tool_call>` -/
def toolCallRegex (text : Text) : List Text :=
  findall toolCallStartToken
    (fun rest => (find toolCallEndToken rest).map fun p => (p, toolCallEndToken.length))
    text.length text

/-- `<function=(.*?)</function>|<function=(.*)$` -/
def toolCallFunctionRegex (text : Text) : List Text :=
  findall toolCallPrefix
    (fun rest => match find functionEndToken rest with
      | some p => some (p, functionEndToken.length)
      | none => some (rest.length, 0))
    text.length text

/-- Where `$` matches: at the end, or before a newline at the end. -/
def dollar (rest : Text) : ℕ := if ['\n'] <:+ rest then rest.length - 1 else rest.length

/-- `<parameter=(.*?)(?:</parameter>|(?=<parameter=)|(?=</function>)|$)` -/
def toolCallParameterRegex (text : Text) : List Text :=
  findall parameterPrefix (fun rest => some ((bestCand rest).getD (dollar rest, 0)))
    text.length text

/-- `parsed_params` with a match of `tool_call_parameter_regex`. -/
def setParam (funcName : Text) (d : List (Text × V)) (pMatch : Text) : List (Text × V) :=
  match find ['>'] pMatch with
  | none => d
  | some pIdx =>
    let pName := pMatch.take pIdx
    dictSet d pName (convertParamValue py (cleanup (pMatch.drop (pIdx + 1))) pName
      (getArgumentsConfig (some funcName) tools))

/-- The dictionary of a function's parameters. -/
def parsedParams (funcName paramsStr : Text) : List (Text × V) :=
  (toolCallParameterRegex paramsStr).foldl (setParam py tools funcName) []

/-- `json.dumps` of a dictionary of values. -/
def dumpsDict (d : List (Text × V)) : Option Text :=
  (d.mapM fun kv => (py.dumps kv.2).map fun t => (kv.1, t)).map (dumpsObject false)

/-- The call of a match of `tool_call_function_regex`, without its index. -/
def functionCall (funcBody : Text) : Option (Option (Text × Text)) :=
  match find ['>'] funcBody with
  | none => some none
  | some nameEnd =>
    let funcName := funcBody.take nameEnd
    (dumpsDict py (parsedParams py tools funcName (funcBody.drop (nameEnd + 1)))).map fun args =>
      some (funcName, args)

def detectAndParse (text : Text) : StreamingParseResult :=
  if ¬ toolCallStartToken <:+: text then { normalText := text }
  else
    let found := toolCallRegex text
    let rawToolCalls := if found = [] ∧ toolCallPrefix <:+: text then [text] else found
    match (rawToolCalls.flatMap toolCallFunctionRegex).mapM (functionCall py tools) with
    | none => { normalText := text }
    | some cs =>
      { normalText := text.take ((find toolCallStartToken text).getD 0)
        calls := (cs.filterMap id).mapIdx fun i c =>
          { toolIndex := i, name := some c.1, parameters := c.2 } }

end Sglang.Tools.Qwen
