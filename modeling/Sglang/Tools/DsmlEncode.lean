import Sglang.Tools.DsmlTags

/-!
# Tool calls in and out of DSML

The tool calls of an assistant message as text (`encode_arguments_to_dsml` and `render_message` of
`entrypoints/openai/encoding_dsv41.py`) and back (`detect_and_parse` of the DSML detectors and
`parse_base_json`).  An arguments object is the list of its members; that `json.loads` reads what
`json.dumps` writes for such an object is not spelled out.

* `Markup` says that a text consists of tags and of text without the DSML marker, so that no other
  tag can begin anywhere in it.  This is what keeps the searches of the detector on the track.
* `detectAndParse_renderMessage`: the detector finds the calls of a rendered message, in order, with
  the blanks around string values gone.
* `dsml_round_trip_iff`: so the calls come back as they were exactly if there are no such blanks.
-/

namespace Sglang.Tools.Dsml
open Lib List Option

/-! ## The message -/

/-- What encoder and detector use of JSON values. -/
structure Values (V : Type) extends Json V where
  str : Text → V
  /-- `isinstance(v, str)`, and the string -/
  str? : V → Option Text
  /-- `json.loads` of an object -/
  loadsObject : Text → Option (List (Text × V))

structure ToolCall (V : Type) where
  name : Text
  arguments : List (Text × V)
  deriving DecidableEq

variable {V : Type} (js : Values V) (f : Format)

/-- `p_dsml_template`: the opening tag, the value and the end tag. -/
def encodeArgument (kv : Text × V) : Text :=
  let (isStr, value) :=
    match js.str? kv.2 with
    | some s => ("true".toList, s)
    | none => ("false".toList, js.dumps kv.2)
  f.parameterStart ++ (" name=\"".toList ++ kv.1 ++ "\" string=\"".toList ++ isStr ++
    "\">".toList ++ value) ++ f.parameterEnd

def encodeArgumentsToDsml (arguments : List (Text × V)) : Text :=
  ['\n'].intercalate (arguments.map (encodeArgument js f))

/-- `tool_call_template` -/
def renderToolCall (tc : ToolCall V) : Text :=
  f.invokeStartToken ++ (" name=\"".toList ++ tc.name ++ "\">".toList ++ '\n' ::
    encodeArgumentsToDsml js f tc.arguments ++ ['\n']) ++ f.invokeEndToken

/-- `tool_calls_template` -/
def renderToolCalls (calls : List (ToolCall V)) : Text :=
  f.botToken ++ ('\n' :: ['\n'].intercalate (calls.map (renderToolCall js f)) ++ ['\n']) ++
    f.eotToken

def eosToken : Text := "<｜end▁of▁sentence｜>".toList

def thinkingEndToken : Text := "</think>".toList

/-- An assistant message; `thinking` says whether its reasoning is rendered. -/
structure AssistantMessage (V : Type) where
  reasoningContent : Text
  content : Text
  toolCalls : List (ToolCall V)
  thinking : Bool
  woEos : Bool

/-- What is rendered before the tool calls. -/
def AssistantMessage.lead (m : AssistantMessage V) : Text :=
  (if m.thinking then m.reasoningContent ++ thinkingEndToken else []) ++ m.content

/-- `render_message` for an assistant.  The prompt for the reasoning effort, which stands in front
of the first message of a conversation, and the special tokens of a task after a message are left
out: neither is part of what the model has answered. -/
def renderMessage (m : AssistantMessage V) : Text :=
  m.lead ++ (if m.toolCalls = [] then [] else "\n\n".toList ++ renderToolCalls js f m.toolCalls) ++
    (if m.woEos then [] else eosToken)

/-! ## The detector -/

/-- `re.findall(function_calls_regex, s)` -/
def sections : ℕ → Text → List Text
  | 0, _ => []
  | n + 1, s =>
    match find f.botToken s with
    | none => []
    | some i =>
      let s := s.drop (i + f.botToken.length)
      match find f.eotToken s with
      | none => []
      | some p => s.take p :: sections n (s.drop (p + f.eotToken.length))

/-- `re.finditer(invoke_regex, s)` -/
def invokeMatches : ℕ → Text → List InvokeMatch
  | 0, _ => []
  | n + 1, s =>
    match search (matchInvoke f) s with
    | none => []
    | some m => m :: invokeMatches n m.rest

/-- A parameter's value. -/
def parameterValue (ty value : Text) : V :=
  if ty = "true".toList then js.str (strip value)
  else (js.loads (strip value)).getD (js.str (strip value))

/-- `json.loads(_parse_parameters_from_xml(content))` -/
def parseArguments (content : Text) : Option (List (Text × V)) :=
  let stripped := strip content
  if ['{'] <+: stripped ∧ ['}'] <:+ stripped then js.loadsObject stripped
  else some ((parameterMatches f content.length content).1.foldl
    (fun d m => dictSet d m.1 (parameterValue js m.2.1 m.2.2)) [])

/-- A call that was found, with the index of its tool. -/
structure FoundCall (V : Type) extends ToolCall V where
  toolIndex : ℤ

/-- `_get_tool_indices`: of two tools with one name the last. -/
def toolIndex? (tools : List Text) (name : Text) : Option ℕ :=
  ((tools.zipIdx.filter fun t => t.1 = name).getLast?).map Prod.snd

/-- `parse_base_json`; `forward` is SGLANG_FORWARD_UNKNOWN_TOOLS -/
def parseBaseJson (tools : List Text) (forward : Bool) (tc : ToolCall V) : List (FoundCall V) :=
  match if tc.name = [] then none else toolIndex? tools tc.name with
  | some i => [{ tc with toolIndex := i }]
  | none =>
    if forward then [{ tc with toolIndex := ((toolIndex? tools tc.name).map (↑)).getD (-1) }] else []

/-- The calls of `detect_and_parse`. -/
def detectAndParse (tools : List Text) (forward : Bool) (text : Text) : List (FoundCall V) :=
  let found := (sections f text.length text).flatMap fun s =>
    (invokeMatches f s.length s).map fun m => (m.name, m.body)
  match found.mapM fun m => (parseArguments js f m.2).map (ToolCall.mk m.1) with
  | none => []
  | some calls => calls.flatMap (parseBaseJson tools forward)

/-! ## Text without markers -/

/-- The text has no DSML marker. -/
def Unmarked (s : Text) : Prop := ¬ dsmlToken <:+: s

instance (s : Text) : Decidable (Unmarked s) := inferInstanceAs (Decidable (¬ _))

/-- One of the tags, up to its attributes. -/
structure Tag (w : Text) : Prop where
  head : w.head? = some '<'
  tail : '<' ∉ w.tail
  marked : dsmlToken <:+: w

variable {w v u s : Text}

lemma Unmarked.not_isInfix (hu : Unmarked u) (hw : Tag w) : ¬ w <:+: u :=
  fun h => hu (hw.marked.trans h)

variable {a b : Text} {c : Char}

/-- Texts without marker around a letter that the marker does not have. -/
lemma Unmarked.append_cons (ha : Unmarked a) (hb : Unmarked b) (hc : c ∉ dsmlToken) :
    Unmarked (a ++ c :: b) := by
  intro h
  obtain ⟨i, hi⟩ := infix_iff_occursAt.1 h
  rcases Nat.lt_or_ge a.length i with hlt | hge
  · obtain ⟨k, rfl⟩ := Nat.exists_eq_add_of_lt hlt
    rw [Nat.add_assoc, occursAt_append_left, occursAt_cons_succ] at hi
    exact hb (infix_iff_occursAt.2 ⟨k, hi⟩)
  · rcases Nat.lt_or_ge a.length (i + dsmlToken.length) with hin | hout
    · have hget := hi.getElem? (k := a.length - i) (by omega)
      rw [Nat.add_sub_cancel' hge] at hget
      simp only [getElem?_append_right le_rfl, Nat.sub_self, getElem?_cons_zero] at hget
      exact hc (mem_of_getElem? hget.symm)
    · exact ha (infix_iff_occursAt.2 ⟨i, hi.of_append hout⟩)

/-- A tag is not in a text with another tag if it is not in the rest. -/
lemma Tag.not_infix_append (hw : Tag w) (hv : Tag v) (hu : Unmarked u)
    (hwv : ¬ w <+: v ∧ ¬ v <+: w) (hs : ¬ w <:+: s) : ¬ w <:+: u ++ (v ++ s) := by
  intro h
  obtain ⟨i, hi⟩ := infix_iff_occursAt.1 h
  have hat : OccursAt v (u ++ (v ++ s)) u.length :=
    occursAt_iff.2 ⟨u, s, (append_assoc _ _ _).symm, rfl⟩
  rcases Nat.lt_trichotomy i u.length with hlt | rfl | hgt
  · have hle := hi.no_overlap hw.tail hv.head hat hlt
    exact hu.not_isInfix hw (infix_iff_occursAt.2 ⟨i, hi.of_append hle⟩)
  · have hpre := occursAt_zero.1 (occursAt_append_left.1 (Nat.add_zero u.length ▸ hi))
    rcases prefix_or_prefix_of_prefix hpre (prefix_append v s) with h | h
    · exact hwv.1 h
    · exact hwv.2 h
  · have hle := hat.no_overlap hv.tail hw.head hi hgt
    obtain ⟨k, rfl⟩ := Nat.exists_eq_add_of_le hle
    rw [← append_assoc, ← length_append, occursAt_append_left] at hi
    exact hs (infix_iff_occursAt.2 ⟨k, hi⟩)

/-- Texts without marker and tags in turn. -/
inductive Markup (tags : List Text) : Text → Prop
  | plain {u : Text} (hu : Unmarked u) : Markup tags u
  | tag {u v s : Text} (hu : Unmarked u) (hv : v ∈ tags) (hs : Markup tags s) :
      Markup tags (u ++ (v ++ s))

variable {tags tags' : List Text}

/-- A text made of other tags and unmarked text does not contain the tag. -/
lemma Markup.not_isInfix (hw : Tag w)
    (ht : ∀ v ∈ tags, Tag v ∧ ¬ w <+: v ∧ ¬ v <+: w) (h : Markup tags s) : ¬ w <:+: s := by
  induction h with
  | plain hu => exact hu.not_isInfix hw
  | tag hu hv _ ih => exact hw.not_infix_append (ht _ hv).1 hu (ht _ hv).2 ih

lemma Markup.mono (hsub : ∀ v ∈ tags, v ∈ tags') (h : Markup tags s) : Markup tags' s := by
  induction h with
  | plain hu => exact .plain hu
  | tag hu hv _ ih => exact .tag hu (hsub _ hv) ih

lemma Markup.append_cons (ha : Markup tags a) (hb : Markup tags b) (hc : c ∉ dsmlToken) :
    Markup tags (a ++ c :: b) := by
  induction ha with
  | plain hu =>
    cases hb with
    | plain hb => exact .plain (hu.append_cons hb hc)
    | tag hu' hv hs =>
      have := Markup.tag (hu.append_cons hu' hc) hv hs
      rwa [append_assoc, cons_append] at this
  | tag hu hv _ ih =>
    rw [append_assoc, append_assoc]
    exact .tag hu hv ih

lemma newline_not_mem : '\n' ∉ dsmlToken := by decide

lemma unmarked_nil : Unmarked [] := by simp [Unmarked, dsmlToken]

lemma Markup.intercalate : ∀ {l : List Text}, (∀ s ∈ l, Markup tags s) →
    Markup tags (['\n'].intercalate l)
  | [], _ => .plain unmarked_nil
  | [s], h => by simpa using h s
  | s :: t :: l, h => by
    have ih := Markup.intercalate fun x hx => h x (mem_cons_of_mem _ hx)
    simpa using (h s (by simp)).append_cons ih newline_not_mem

/-! ## One parameter -/

def parameterOpening (f : Format) (sp w sp' ty sp'' : Text) : Text :=
  f.parameterStart ++ sp ++ attrText "name".toList w ++ sp' ++ attrText "string".toList ty ++
    sp'' ++ ['>']

variable {f : Format} {js : Values V} {ty r : Text}

/-- What the regular expression of a parameter matches. -/
lemma matchParameter_eq_some :
    matchParameter f s = some (w, ty, r) ↔
      ∃ sp sp' sp'', sp ≠ [] ∧ Blank sp ∧ Quotable w ∧ sp' ≠ [] ∧ Blank sp' ∧ Quotable ty ∧
        Blank sp'' ∧ s = parameterOpening f sp w sp' ty sp'' ++ r := by
  simp only [matchParameter, bind_eq_bind, bind_eq_some_iff, lit_eq_some,
    Prod.exists, Option.some.injEq, Prod.mk.injEq, attr_eq_some name_head,
    attr_eq_some string_head, dropWhile_eq_iff]
  constructor
  · rintro ⟨_, rfl, _, _, ⟨sp, hne, hsp, hw, rfl⟩, _, _, ⟨sp', hne', hsp', hty, rfl⟩, _,
      ⟨sp'', hsp'', -, rfl⟩, rfl, rfl, rfl⟩
    exact ⟨sp, sp', sp'', hne, hsp, hw, hne', hsp', hty, hsp'', by
      simp only [parameterOpening, append_assoc]⟩
  · rintro ⟨sp, sp', sp'', hne, hsp, hw, hne', hsp', hty, hsp'', rfl⟩
    refine ⟨sp ++ attrText "name".toList w ++ (sp' ++ attrText "string".toList ty ++
        (sp'' ++ ('>' :: r))), ?_, w, _, ⟨sp, hne, hsp, hw, rfl⟩, ty, _,
      ⟨sp', hne', hsp', hty, rfl⟩, r, ⟨sp'', hsp'', ?_, rfl⟩, rfl, rfl, rfl⟩
    · simp only [parameterOpening, append_assoc, singleton_append]
    · intro c hc
      rw [← Option.some.inj hc]
      rfl

/-- The type and the text of a value. -/
def encodeValue (js : Values V) (v : V) : Text × Text :=
  match js.str? v with
  | some s => ("true".toList, s)
  | none => ("false".toList, js.dumps v)

lemma encodeValue_fst (js : Values V) (v : V) :
    (encodeValue js v).1 = "true".toList ∨ (encodeValue js v).1 = "false".toList := by
  unfold encodeValue
  split <;> simp

/-- The encoder writes one blank where the expression allows any. -/
lemma encodeArgument_eq (kv : Text × V) :
    encodeArgument js f kv = parameterOpening f [' '] kv.1 [' '] (encodeValue js kv.2).1 [] ++
      ((encodeValue js kv.2).2 ++ f.parameterEnd) := by
  unfold encodeArgument encodeValue
  cases js.str? kv.2 <;> simp [parameterOpening, attrText]

/-- A member of an arguments object. -/
structure Member (js : Values V) (kv : Text × V) : Prop where
  key : Quotable kv.1
  key_unmarked : Unmarked kv.1
  value_unmarked : Unmarked (encodeValue js kv.2).2

def argumentTags : List Text := [deepSeekV41.parameterStart, deepSeekV41.parameterEnd]

def callTags : List Text :=
  argumentTags ++ [deepSeekV41.invokeStartToken, deepSeekV41.invokeEndToken]

lemma blank_singleton : Blank [' '] := by simp [Blank, isSpace]

lemma blank_nil : Blank [] := by simp [Blank]

lemma tag_parameterEnd : Tag deepSeekV41.parameterEnd := ⟨by decide, by decide, by decide⟩

variable {kv : Text × V}

/-- A written parameter is matched whole, and the match stops where the parameter does. -/
lemma Member.matchWhole (h : Member js kv) (r : Text) :
    matchWhole deepSeekV41 (encodeArgument js deepSeekV41 kv ++ r) =
      some (kv.1, (encodeValue js kv.2).1, (encodeValue js kv.2).2, r) := by
  have hty : Quotable (encodeValue js kv.2).1 := by
    rcases encodeValue_fst js kv.2 with h | h <;> rw [h] <;> exact ⟨by decide, by decide⟩
  rw [encodeArgument_eq, append_assoc, append_assoc, Dsml.matchWhole,
    matchParameter_eq_some.2 ⟨[' '], [' '], [], by simp, blank_singleton, h.key, by simp,
      blank_singleton, hty, blank_nil, rfl⟩, bind_eq_bind, bind_some]
  dsimp only
  rw [find_append_word tag_parameterEnd.head tag_parameterEnd.tail
    (h.value_unmarked.not_isInfix tag_parameterEnd) r, bind_eq_bind, bind_some,
    take_left, ← append_assoc, ← length_append, drop_left]

lemma Member.markup (h : Member js kv) :
    Markup argumentTags (encodeArgument js deepSeekV41 kv) := by
  have hq : '\"' ∉ dsmlToken := by decide
  have hty : Unmarked (encodeValue js kv.2).1 := by
    rcases encodeValue_fst js kv.2 with h | h <;> rw [h] <;> decide
  have hmid := Unmarked.append_cons (a := " name=".toList) (by decide)
    (h.key_unmarked.append_cons (Unmarked.append_cons (a := " string=".toList) (by decide)
      (hty.append_cons (Unmarked.append_cons unmarked_nil h.value_unmarked
        (by decide : '>' ∉ dsmlToken)) hq) hq) hq) hq
  have hend : Markup argumentTags _ := .tag hmid (v := deepSeekV41.parameterEnd)
    (by simp [argumentTags]) (.plain unmarked_nil)
  have := hend.tag unmarked_nil (v := deepSeekV41.parameterStart) (by simp [argumentTags])
  rw [encodeArgument_eq]
  simpa [parameterOpening, attrText] using this

/-! ## The parameters of a call -/

/-- Members one to a line. -/
def argumentLines (js : Values V) (args : List (Text × V)) : Text :=
  args.flatMap fun kv => '\n' :: encodeArgument js deepSeekV41 kv

lemma newline_intercalate : ∀ {l : List Text}, l ≠ [] →
    '\n' :: ['\n'].intercalate l = l.flatMap ('\n' :: ·)
  | [s], _ => by simp
  | s :: t :: l, _ => by
    have ih := newline_intercalate (l := t :: l) (by simp)
    rw [intercalate_cons_cons, flatMap_cons, ← ih]
    simp

/-- A newline is skipped. -/
lemma search_newline {β : Type} {m : Text → Option β} {t : Text} (h : m ('\n' :: t) = none) :
    search m ('\n' :: t) = search m t :=
  search_append (a := ['\n']) fun i hi => by
    obtain rfl : i = 0 := by simpa using hi
    exact h

lemma matchWhole_newline (t : Text) : matchWhole deepSeekV41 ('\n' :: t) = none := by
  have : lit deepSeekV41.parameterStart ('\n' :: t) = none := by
    simp [lit_eq_none, Format.parameterStart]
  simp [matchWhole, matchParameter, this]

lemma matchWhole_nil : matchWhole deepSeekV41 [] = none := by decide

/-- The parameters of a call are found in order, one for each line. -/
lemma parameterMatches_lines {tail : Text} (ht : search (matchWhole deepSeekV41) tail = none) :
    ∀ {args} {n}, (∀ kv ∈ args, Member js kv) → args.length ≤ n →
      parameterMatches deepSeekV41 n (argumentLines js args ++ tail) =
        (args.map fun kv => (kv.1, encodeValue js kv.2), tail)
  | [], 0, _, _ => rfl
  | [], n + 1, _, _ => by simp [parameterMatches, argumentLines, ht]
  | kv :: args, n + 1, h, hn => by
    have hs : search (matchWhole deepSeekV41) (argumentLines js (kv :: args) ++ tail) =
        some (kv.1, (encodeValue js kv.2).1, (encodeValue js kv.2).2,
          argumentLines js args ++ tail) := by
      rw [argumentLines, flatMap_cons, append_assoc, cons_append,
        search_newline (matchWhole_newline _)]
      exact search_of_eq_some ((h kv (by simp)).matchWhole _)
    have ih := parameterMatches_lines ht
      (fun x hx => h x (mem_cons_of_mem _ hx)) (Nat.le_of_succ_le_succ hn)
    simp only [parameterMatches, hs, ih, map_cons]

lemma foldl_dictSet {α W : Type} (key : α → Text) (val : α → W) : ∀ (l : List α)
    {d : List (Text × W)}, (l.map key).Nodup → (∀ a ∈ l, key a ∉ d.map Prod.fst) →
      l.foldl (fun d a => dictSet d (key a) (val a)) d = d ++ l.map fun a => (key a, val a)
  | [], d, _, _ => by simp
  | a :: l, d, hnd, hd => by
    rw [map_cons, nodup_cons] at hnd
    rw [foldl_cons, dictSet_of_not_mem (hd a (by simp)),
      foldl_dictSet key val l hnd.2 fun b hb => ?_]
    · simp
    · have hne : key b ≠ key a := fun h => hnd.1 (h ▸ List.mem_map_of_mem hb)
      have := hd b (mem_cons_of_mem _ hb)
      simp_all

/-- What becomes of a value. -/
def stripValue (js : Values V) (v : V) : V :=
  match js.str? v with
  | some s => js.str (strip s)
  | none => v

/-- What `json` does: a value that is no string is read back from its text, which has no whitespace
around it; a string is its characters. -/
structure Values.Lawful (js : Values V) : Prop where
  loads_dumps : ∀ v, js.str? v = none → js.loads (js.dumps v) = some v
  strip_dumps : ∀ v, js.str? v = none → strip (js.dumps v) = js.dumps v
  str : ∀ v s, js.str? v = some s ↔ v = js.str s

/-- A value is read back as it was, but for the blanks around a string. -/
lemma parameterValue_encodeValue (hjs : js.Lawful) (v : V) :
    parameterValue js (encodeValue js v).1 (encodeValue js v).2 = stripValue js v := by
  unfold encodeValue stripValue parameterValue
  cases hv : js.str? v with
  | some s => simp
  | none => simp [hjs.strip_dumps v hv, hjs.loads_dumps v hv]

/-- The content of an invoke. -/
def callBody (js : Values V) (tc : ToolCall V) : Text :=
  '\n' :: encodeArgumentsToDsml js deepSeekV41 tc.arguments ++ ['\n']

/-- A tool call whose arguments can be written. -/
structure WellFormed (js : Values V) (tc : ToolCall V) : Prop where
  name : Quotable tc.name
  name_stripped : strip tc.name = tc.name
  name_unmarked : Unmarked tc.name
  members : ∀ kv ∈ tc.arguments, Member js kv
  keys : (tc.arguments.map Prod.fst).Nodup

variable {tc : ToolCall V}

lemma search_newlines (t : Text) (ht : t = ['\n'] ∨ t = ['\n', '\n']) :
    search (matchWhole deepSeekV41) t = none := by
  rcases ht with rfl | rfl <;> simp [search, matchWhole_newline, matchWhole_nil]

lemma WellFormed.parameterMatches (h : WellFormed js tc) :
    (parameterMatches deepSeekV41 (callBody js tc).length (callBody js tc)).1 =
      tc.arguments.map fun kv => (kv.1, encodeValue js kv.2) := by
  rcases eq_nil_or_concat' tc.arguments with hnil | ⟨_, _, hne⟩
  · have hb : callBody js tc = argumentLines js tc.arguments ++ ['\n', '\n'] := by
      simp [callBody, hnil, encodeArgumentsToDsml, argumentLines]
    rw [hb, parameterMatches_lines (search_newlines _ (.inr rfl)) h.members (by simp [hnil])]
  · have hb : callBody js tc = argumentLines js tc.arguments ++ ['\n'] := by
      rw [callBody, encodeArgumentsToDsml, newline_intercalate (by simp [hne]), argumentLines,
        flatMap_map]
    have hlen : tc.arguments.length ≤ (argumentLines js tc.arguments ++ ['\n']).length := by
      have : tc.arguments.length ≤ (argumentLines js tc.arguments).length := by
        unfold argumentLines
        induction tc.arguments with
        | nil => simp
        | cons kv args ih =>
          rw [flatMap_cons, length_append, length_cons, length_cons]
          omega
      simp only [length_append]
      omega
    rw [hb, parameterMatches_lines (search_newlines _ (.inl rfl)) h.members hlen]

/-- The arguments are parsed as tags: they do not begin with a brace. -/
lemma not_brace_callBody (tc : ToolCall V) : ¬ ['{'] <+: strip (callBody js tc) := by
  intro h
  have h' := h.trans ( rdropWhile_prefix isSpace _)
  rcases hargs : tc.arguments with _ | ⟨kv, args⟩
  · simp [callBody, hargs, encodeArgumentsToDsml, isSpace] at h'
  have hb : ∃ t, callBody js tc = '\n' :: (deepSeekV41.parameterStart ++ t) := by
    rw [callBody, encodeArgumentsToDsml, newline_intercalate (by simp [hargs]), hargs,
      map_cons, flatMap_cons, encodeArgument_eq]
    exact ⟨_, rfl⟩
  obtain ⟨t, hb⟩ := hb
  rw [hb] at h'
  simp [isSpace, Format.parameterStart] at h'

/-- The arguments of a call, read back. -/
lemma WellFormed.parseArguments (hjs : js.Lawful) (h : WellFormed js tc) :
    parseArguments js deepSeekV41 (callBody js tc) =
      some (tc.arguments.map fun kv => (kv.1, stripValue js kv.2)) := by
  rw [Dsml.parseArguments, if_neg fun hb => not_brace_callBody tc hb.1, h.parameterMatches,
    foldl_map]
  rw [foldl_dictSet (fun kv : Text × V => kv.1)
    (fun kv => parameterValue js (encodeValue js kv.2).1 (encodeValue js kv.2).2) _ h.keys
    (by simp)]
  simp [parameterValue_encodeValue hjs]

/-! ## The calls -/

lemma WellFormed.markup_arguments (h : WellFormed js tc) :
    Markup argumentTags (encodeArgumentsToDsml js deepSeekV41 tc.arguments) := by
  refine Markup.intercalate fun s hs => ?_
  obtain ⟨kv, hkv, rfl⟩ := List.mem_map.1 hs
  exact (h.members kv hkv).markup

lemma WellFormed.markup_body (h : WellFormed js tc) : Markup argumentTags (callBody js tc) := by
  have := Markup.append_cons (.plain unmarked_nil)
    (h.markup_arguments.append_cons (.plain unmarked_nil) newline_not_mem) newline_not_mem
  simpa [callBody] using this

lemma tag_invokeEnd : Tag deepSeekV41.invokeEndToken := ⟨by decide, by decide, by decide⟩

lemma tag_bot : Tag deepSeekV41.botToken := ⟨by decide, by decide, by decide⟩

lemma tag_eot : Tag deepSeekV41.eotToken := ⟨by decide, by decide, by decide⟩

lemma argumentTags_invokeEnd : ∀ v ∈ argumentTags, Tag v ∧
    ¬ deepSeekV41.invokeEndToken <+: v ∧ ¬ v <+: deepSeekV41.invokeEndToken := by
  simp only [argumentTags, forall_mem_cons]
  exact ⟨⟨⟨by decide, by decide, by decide⟩, by decide, by decide⟩,
    ⟨tag_parameterEnd, by decide, by decide⟩, nofun⟩

lemma callTags_eot : ∀ v ∈ callTags, Tag v ∧
    ¬ deepSeekV41.eotToken <+: v ∧ ¬ v <+: deepSeekV41.eotToken := by
  simp only [callTags, argumentTags, cons_append, nil_append, forall_mem_cons]
  exact ⟨⟨⟨by decide, by decide, by decide⟩, by decide, by decide⟩,
    ⟨tag_parameterEnd, by decide, by decide⟩,
    ⟨⟨by decide, by decide, by decide⟩, by decide, by decide⟩,
    ⟨tag_invokeEnd, by decide, by decide⟩, nofun⟩

lemma renderToolCall_eq (tc : ToolCall V) :
    renderToolCall js deepSeekV41 tc = invokeOpening deepSeekV41 [' '] tc.name [] ['>'] ++
      (callBody js tc ++ deepSeekV41.invokeEndToken) := by
  simp [renderToolCall, invokeOpening, attrText, callBody]

/-- A written call is matched whole. -/
lemma WellFormed.matchInvoke (h : WellFormed js tc) (r : Text) :
    matchInvoke deepSeekV41 (renderToolCall js deepSeekV41 tc ++ r) =
      some ⟨tc.name, callBody js tc, true, r⟩ := by
  rw [renderToolCall_eq, append_assoc, append_assoc,
    matchInvoke_open (by simp) blank_singleton h.name blank_nil,
    find_append_word tag_invokeEnd.head tag_invokeEnd.tail
      (h.markup_body.not_isInfix tag_invokeEnd argumentTags_invokeEnd)]
  dsimp only
  rw [h.name_stripped, take_left, ← append_assoc, ← length_append, drop_left]

lemma WellFormed.markup (h : WellFormed js tc) :
    Markup callTags (renderToolCall js deepSeekV41 tc) := by
  have hq : '\"' ∉ dsmlToken := by decide
  have hname : Unmarked (" name=".toList ++ '\"' :: (tc.name ++ '\"' :: ['>'])) :=
    Unmarked.append_cons (by decide) (h.name_unmarked.append_cons (by decide) hq) hq
  have hargs : Markup callTags (encodeArgumentsToDsml js deepSeekV41 tc.arguments) :=
    h.markup_arguments.mono fun v hv => mem_append_left _ hv
  have hend : Markup callTags ([] ++ (deepSeekV41.invokeEndToken ++ [])) :=
    .tag unmarked_nil (by simp [callTags]) (.plain unmarked_nil)
  have hrest := Markup.append_cons (.plain hname)
    (hargs.append_cons hend newline_not_mem) newline_not_mem
  have := Markup.tag unmarked_nil (v := deepSeekV41.invokeStartToken) (by simp [callTags]) hrest
  simpa [renderToolCall] using this

/-- Calls one after the other, each on a new line. -/
def callLines (js : Values V) (calls : List (ToolCall V)) : Text :=
  calls.flatMap fun tc => '\n' :: renderToolCall js deepSeekV41 tc

lemma matchInvoke_newline (t : Text) : matchInvoke deepSeekV41 ('\n' :: t) = none := by
  have : lit deepSeekV41.invokeStartToken ('\n' :: t) = none := by
    simp [lit_eq_none, Format.invokeStartToken]
  simp [matchInvoke, matchInvokeName, this]

/-- The calls of a message are found in order. -/
lemma invokeMatches_lines : ∀ {calls} {n : ℕ},
    (∀ tc ∈ calls, WellFormed js tc) → calls.length ≤ n →
      (invokeMatches deepSeekV41 n (callLines js calls ++ ['\n'])).map (fun m => (m.name, m.body)) =
        calls.map fun tc => (tc.name, callBody js tc)
  | [], 0, _, _ => rfl
  | [], n + 1, _, _ => by
    have hs : search (matchInvoke deepSeekV41) ['\n'] = none := by
      decide
    simp [invokeMatches, callLines, hs]
  | tc :: calls, n + 1, h, hn => by
    have hs : search (matchInvoke deepSeekV41) (callLines js (tc :: calls) ++ ['\n']) =
        some ⟨tc.name, callBody js tc, true, callLines js calls ++ ['\n']⟩ := by
      rw [callLines, flatMap_cons, append_assoc, cons_append,
        search_newline (matchInvoke_newline _)]
      exact search_of_eq_some ((h tc (by simp)).matchInvoke _)
    have ih := invokeMatches_lines
      (fun x hx => h x (mem_cons_of_mem _ hx)) (Nat.le_of_succ_le_succ hn)
    simp only [invokeMatches, hs, map_cons, ih]

lemma length_callLines (calls : List (ToolCall V)) :
    calls.length ≤ (callLines js calls).length := by
  unfold callLines
  induction calls with
  | nil => simp
  | cons tc calls ih =>
    rw [flatMap_cons, length_append, length_cons, length_cons]
    omega

variable {m : AssistantMessage V} {calls : List (ToolCall V)}

/-- The block between the tags. -/
lemma renderToolCalls_eq (hne : calls ≠ []) :
    renderToolCalls js deepSeekV41 calls = deepSeekV41.botToken ++
      (callLines js calls ++ ['\n'] ++ deepSeekV41.eotToken) := by
  have := newline_intercalate (l := calls.map (renderToolCall js deepSeekV41)) (by simp [hne])
  rw [renderToolCalls, append_assoc, this, callLines, flatMap_map]

lemma markup_callLines (hne : calls ≠ []) (h : ∀ tc ∈ calls, WellFormed js tc) :
    Markup callTags (callLines js calls ++ ['\n']) := by
  have hl : Markup callTags (['\n'].intercalate (calls.map (renderToolCall js deepSeekV41))) := by
    refine Markup.intercalate fun s hs => ?_
    obtain ⟨tc, htc, rfl⟩ := List.mem_map.1 hs
    exact (h tc htc).markup
  have := Markup.append_cons (.plain unmarked_nil)
    (hl.append_cons (.plain unmarked_nil) newline_not_mem) newline_not_mem
  have hj := newline_intercalate (l := calls.map (renderToolCall js deepSeekV41)) (by simp [hne])
  rw [nil_append, ← cons_append, hj, flatMap_map] at this
  exact this

/-- What comes after the calls. -/
lemma find_bot_end (woEos : Bool) :
    find deepSeekV41.botToken (if woEos then [] else eosToken) = none := by
  cases woEos <;> decide

/-- A message has one section of calls. -/
lemma sections_renderMessage (hne : m.toolCalls ≠ [])
    (h : ∀ tc ∈ m.toolCalls, WellFormed js tc) (hlead : Unmarked m.lead) :
    sections deepSeekV41 (renderMessage js deepSeekV41 m).length (renderMessage js deepSeekV41 m) =
      [callLines js m.toolCalls ++ ['\n']] := by
  have hbot : ¬ deepSeekV41.botToken <:+: m.lead ++ "\n\n".toList :=
    (hlead.append_cons (by decide) newline_not_mem).not_isInfix tag_bot
  have heot := (markup_callLines hne h).not_isInfix tag_eot callTags_eot
  have htext : renderMessage js deepSeekV41 m = m.lead ++ "\n\n".toList ++
      (deepSeekV41.botToken ++ (callLines js m.toolCalls ++ ['\n'] ++ (deepSeekV41.eotToken ++
        if m.woEos then [] else eosToken))) := by
    rw [renderMessage, if_neg hne, renderToolCalls_eq hne]
    simp only [append_assoc]
  have hlen : (renderMessage js deepSeekV41 m).length ≠ 0 := by
    rw [htext]
    simp
  obtain ⟨n, hn⟩ := Nat.exists_eq_succ_of_ne_zero hlen
  rw [hn, htext, sections, find_append_word tag_bot.head tag_bot.tail hbot]
  dsimp only
  rw [← length_append, ← append_assoc, drop_left, find_append_word tag_eot.head tag_eot.tail heot]
  dsimp only
  rw [take_left, ← length_append, ← append_assoc, drop_left]
  cases n with
  | zero => rfl
  | succ n => rw [sections, find_bot_end]

lemma mapM_of_forall {α β : Type} {F : α → Option β} {G : α → β} : ∀ {l : List α},
    (∀ a ∈ l, F a = some (G a)) → l.mapM F = some (l.map G)
  | [], _ => rfl
  | a :: l, h => by
    rw [mapM_cons, h a (by simp), mapM_of_forall fun b hb => h b (mem_cons_of_mem _ hb)]
    rfl

/-- What is found of a call. -/
def stripCall (js : Values V) (tc : ToolCall V) : ToolCall V :=
  { tc with arguments := tc.arguments.map fun kv => (kv.1, stripValue js kv.2) }

variable {tools : List Text}

lemma parseBaseJson_eq (forward : Bool) (hname : tc.name ≠ []) (htool : tc.name ∈ tools) :
    (parseBaseJson tools forward tc).map FoundCall.toToolCall = [tc] := by
  have hidx : ∃ i, toolIndex? tools tc.name = some i := by
    obtain ⟨i, hi⟩ := mem_iff_getElem?.1 htool
    have hmem : (tc.name, i) ∈ tools.zipIdx.filter fun t => t.1 = tc.name :=
      mem_filter.2 ⟨mk_mem_zipIdx_iff_getElem?.2 hi, by simp⟩
    cases hl : (tools.zipIdx.filter fun t => t.1 = tc.name).getLast? with
    | none => simp [getLast?_eq_none_iff.1 hl] at hmem
    | some x => exact ⟨x.2, by simp [toolIndex?, hl]⟩
  obtain ⟨i, hi⟩ := hidx
  simp [parseBaseJson, hname, hi]

/-- What the detector makes of a rendered message: its calls, with strings stripped. -/
lemma detectAndParse_renderMessage (hjs : js.Lawful) (forward : Bool) (hne : m.toolCalls ≠ [])
    (h : ∀ tc ∈ m.toolCalls, WellFormed js tc) (htools : ∀ tc ∈ m.toolCalls, tc.name ∈ tools)
    (hlead : Unmarked m.lead) :
    (detectAndParse js deepSeekV41 tools forward (renderMessage js deepSeekV41 m)).map
      FoundCall.toToolCall = m.toolCalls.map (stripCall js) := by
  have hlen : m.toolCalls.length ≤ (callLines js m.toolCalls ++ ['\n']).length := by
    rw [length_append]
    exact (length_callLines _).trans (Nat.le_add_right _ _)
  rw [detectAndParse, sections_renderMessage hne h hlead]
  simp only [flatMap_cons, flatMap_nil, append_nil, invokeMatches_lines h hlen]
  rw [mapM_map, mapM_of_forall (G := stripCall js) fun tc htc => by
    simp [(h tc htc).parseArguments hjs, stripCall]]
  have hsingle : ∀ tc ∈ m.toolCalls.map (stripCall js),
      (parseBaseJson tools forward tc).map FoundCall.toToolCall = [tc] := by
    intro tc htc
    obtain ⟨tc', htc', rfl⟩ := List.mem_map.1 htc
    exact parseBaseJson_eq forward (h tc' htc').name.1 (htools tc' htc')
  rw [map_flatMap, flatMap_congr hsingle]
  simp

/-! ## The round trip -/

lemma stripValue_eq_iff (hjs : js.Lawful) (v : V) :
    stripValue js v = v ↔ ∀ s, js.str? v = some s → strip s = s := by
  unfold stripValue
  cases hv : js.str? v with
  | none => simp
  | some s =>
    have hs := (hjs.str v s).1 hv
    simp only [Option.some.injEq, forall_eq']
    constructor
    · intro h
      have := (hjs.str v (strip s)).2 h.symm
      rw [hv] at this
      exact (Option.some.inj this).symm
    · intro h
      rw [h, hs]

/-- Stripping changes nothing exactly if no string has blanks around it. -/
lemma stripCall_eq_iff (hjs : js.Lawful) (tc : ToolCall V) :
    stripCall js tc = tc ↔ ∀ kv ∈ tc.arguments, ∀ s, js.str? kv.2 = some s → strip s = s := by
  have hmap : (tc.arguments.map fun kv => (kv.1, stripValue js kv.2)) = tc.arguments ↔
      ∀ kv ∈ tc.arguments, stripValue js kv.2 = kv.2 := by
    conv_lhs => rhs; rw [← List.map_id tc.arguments]
    rw [map_inj_left]
    simp [Prod.ext_iff]
  refine Iff.trans ?_ (hmap.trans (forall₂_congr fun kv _ => stripValue_eq_iff hjs kv.2))
  cases tc
  simp [stripCall]

/-- **DSML tool calls survive the round trip** exactly if no string among their arguments has
whitespace around it: `detect_and_parse` strips it. -/
theorem dsml_round_trip_iff (hjs : js.Lawful) {tools : List Text} (forward : Bool)
    (hne : m.toolCalls ≠ []) (h : ∀ tc ∈ m.toolCalls, WellFormed js tc)
    (htools : ∀ tc ∈ m.toolCalls, tc.name ∈ tools) (hlead : Unmarked m.lead) :
    (detectAndParse js deepSeekV41 tools forward (renderMessage js deepSeekV41 m)).map
        FoundCall.toToolCall = m.toolCalls ↔
      ∀ tc ∈ m.toolCalls, ∀ kv ∈ tc.arguments, ∀ s, js.str? kv.2 = some s → strip s = s := by
  rw [detectAndParse_renderMessage hjs forward hne h htools hlead]
  conv_lhs => rhs; rw [← List.map_id m.toolCalls]
  rw [map_inj_left]
  exact forall₂_congr fun tc _ => stripCall_eq_iff hjs tc

/-- Strings and booleans. -/
def boolValues : Values (Text ⊕ Bool) where
  loads s := if s = "true".toList then some (.inr true)
    else if s = "false".toList then some (.inr false) else none
  loadsPrefix _ := none
  dumps
    | .inl s => dumpsStr false s
    | .inr b => if b then "true".toList else "false".toList
  str := .inl
  str? v := v.getLeft?
  loadsObject _ := none

lemma boolValues_lawful : boolValues.Lawful where
  loads_dumps v hv := by
    rcases v with s | b
    · cases hv
    · cases b <;> decide +kernel
  strip_dumps v hv := by
    rcases v with s | b
    · cases hv
    · cases b <;> decide +kernel
  str v s := by
    rcases v with s' | b
    · exact some_inj.trans Sum.inl.inj_iff.symm
    · constructor <;> intro h <;> cases h

/-- A call with a string and a boolean. -/
def oneCall (value : Text) : AssistantMessage (Text ⊕ Bool) where
  reasoningContent := "why".toList
  content := []
  toolCalls := [⟨"f".toList, [("a".toList, .inl value), ("b".toList, .inr true)]⟩]
  thinking := true
  woEos := false

lemma oneCall_wellFormed {value : Text} (h : Unmarked value) :
    ∀ tc ∈ (oneCall value).toolCalls, WellFormed boolValues tc := by
  have hf : Quotable "f".toList ∧ strip "f".toList = "f".toList ∧ Unmarked "f".toList :=
    ⟨⟨by decide, by decide⟩, by decide, by decide⟩
  have ha : Quotable "a".toList ∧ Unmarked "a".toList := ⟨⟨by decide, by decide⟩, by decide⟩
  have hb : Quotable "b".toList ∧ Unmarked "b".toList := ⟨⟨by decide, by decide⟩, by decide⟩
  simp only [oneCall, forall_mem_singleton]
  refine ⟨hf.1, hf.2.1, hf.2.2, ?_, by simp⟩
  simp only [forall_mem_cons]
  exact ⟨⟨ha.1, ha.2, h⟩, ⟨hb.1, hb.2, by decide⟩, nofun⟩

theorem dsml_round_trip_iff_oneCall :
    (detectAndParse boolValues deepSeekV41 ["f".toList] false
      (renderMessage boolValues deepSeekV41 (oneCall "x y".toList))).map FoundCall.toToolCall =
        (oneCall "x y".toList).toolCalls := by
  refine (dsml_round_trip_iff boolValues_lawful false (by simp [oneCall])
    (oneCall_wellFormed (by decide)) (by simp [oneCall]) (by decide)).2 ?_
  simp only [oneCall, forall_mem_cons, not_mem_nil, false_implies, implies_true, and_true]
  refine ⟨fun s hs => ?_, nofun⟩
  obtain rfl : "x y".toList = s := some_inj.1 hs
  decide +kernel

/-- The space before a string is lost. -/
theorem dsml_round_trip_strips :
    (detectAndParse boolValues deepSeekV41 ["f".toList] false
      (renderMessage boolValues deepSeekV41 (oneCall " x".toList))).map FoundCall.toToolCall ≠
        (oneCall " x".toList).toolCalls := by
  rw [detectAndParse_renderMessage boolValues_lawful false (by simp [oneCall])
    (oneCall_wellFormed (by decide)) (by simp [oneCall]) (by decide)]
  decide

end Sglang.Tools.Dsml
