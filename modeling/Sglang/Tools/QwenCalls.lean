import Sglang.Tools.PlainText

/-!
# Qwen3-Coder: streamed calls are the parsed calls

A text without markers, and then blocks as the format has them.  The machine emits for each call its
name and its arguments in fragments; `detect_and_parse` finds the same calls with its regular
expressions.  Both convert a value with the same function and write it with `json.dumps`.  If this
raises, streaming raises as well, and `detect_and_parse` gives the text back without calls.

* `scan_blocks`: what the machine emits for a text of blocks.
* `mapM_functionCall`: what the regular expressions of `detect_and_parse` find in it.
* `streams_iff_dumps`: the two agree, for every way to cut the text into chunks, exactly if all
  values can be dumped.
-/

namespace Sglang.Tools.Qwen
open Lib List Option Function State Scanner Event

variable {V : Type} {py : Builtins V} {tools : List Tool} {st : State}

/-! ## Blocks -/

/-- A name or a key. -/
def Plain (w : Text) : Prop := '<' ∉ w ∧ '>' ∉ w

/-- `<parameter=KEY>VALUE</parameter>ws` -/
structure Param where
  key : Text
  value : Text
  space : Text
  key_plain : Plain key
  value_free : ∀ t ∈ [parameterEndToken, parameterPrefix, functionEndToken, toolCallEndToken],
    ¬ t <:+: value
  space_blank : Blank space

/-- `<tool_call>ws<function=NAME>ws(...)*</function>ws</tool_call>ws` -/
structure Block where
  space₁ : Text
  name : Text
  space₂ : Text
  params : List Param
  space₃ : Text
  space₄ : Text
  name_plain : Plain name
  keys_nodup : (params.map Param.key).Nodup
  space₁_blank : Blank space₁
  space₂_blank : Blank space₂
  space₃_blank : Blank space₃
  space₄_blank : Blank space₄

/-- What `tool_call_parameter_regex` finds. -/
def Param.inner (p : Param) : Text := p.key ++ '>' :: p.value

def Param.render (p : Param) : Text :=
  parameterPrefix ++ (p.inner ++ (parameterEndToken ++ p.space))

def renderParams (ps : List Param) : Text := ps.flatMap Param.render

/-- What `tool_call_function_regex` finds. -/
def Block.function (b : Block) : Text := b.name ++ '>' :: (b.space₂ ++ renderParams b.params)

/-- What `tool_call_regex` finds. -/
def Block.content (b : Block) : Text :=
  b.space₁ ++ (toolCallPrefix ++ (b.function ++ (functionEndToken ++ b.space₃)))

def Block.render (b : Block) : Text :=
  toolCallStartToken ++ (b.content ++ (toolCallEndToken ++ b.space₄))

def renderBlocks (bs : List Block) : Text := bs.flatMap Block.render

/-- The value that is written for a parameter. -/
def Block.valueOf (py : Builtins V) (tools : List Tool) (b : Block) (p : Param) : V :=
  convertParamValue py (cleanup p.value) p.key (getArgumentsConfig (some b.name) tools)

/-- The members of the arguments, if all values can be written. -/
def Block.members (py : Builtins V) (tools : List Tool) (b : Block) (ps : List Param) :
    Option (List (Text × Text)) :=
  ps.mapM fun p => (py.dumps (b.valueOf py tools p)).map fun t => (p.key, t)

lemma members_cons (b : Block) (p : Param) (ps : List Param) :
    b.members py tools (p :: ps) = (py.dumps (b.valueOf py tools p)).bind fun t =>
        (b.members py tools ps).map fun kvs => (p.key, t) :: kvs := by
  rw [Block.members, mapM_cons]
  cases py.dumps (b.valueOf py tools p) with
  | none => rfl
  | some t =>
    change ((b.members py tools ps).bind fun kvs => some ((p.key, t) :: kvs)) = _
    cases b.members py tools ps <;> rfl

variable {b : Block} {ps : List Param} {kvs : List (Text × Text)}

lemma members_length (h : b.members py tools ps = some kvs) : kvs.length = ps.length := by
  induction ps generalizing kvs with
  | nil => cases h; rfl
  | cons p ps ih =>
    rw [members_cons, bind_eq_some_iff] at h
    obtain ⟨t, -, h⟩ := h
    obtain ⟨kvs', hkvs', rfl⟩ := map_eq_some_iff.1 h
    rw [length_cons, length_cons, ih hkvs']

/-- The arguments can be written if every value can. -/
lemma members_isSome :
    (b.members py tools ps).isSome = true ↔
      ∀ p ∈ ps, (py.dumps (b.valueOf py tools p)).isSome = true := by
  induction ps with
  | nil => simp [Block.members]
  | cons p ps ih =>
    rw [members_cons, forall_mem_cons, ← ih]
    cases py.dumps (b.valueOf py tools p) with
    | none => simp
    | some t => simp

/-! ## What is streamed for a call -/

/-- The fragments of the members, `n` of which have been sent. -/
def memberFragments : ℕ → List (Text × Text) → List Text
  | _, [] => []
  | n, kv :: kvs =>
    (if n = 0 then [['{']] else []) ++
      (if 0 < n then ", ".toList ++ dumpsMember true kv else dumpsMember true kv) ::
        memberFragments (n + 1) kvs

/-- The fragments of a call's arguments. -/
def argumentFragments (kvs : List (Text × Text)) : List Text :=
  memberFragments 0 kvs ++ (if kvs = [] then [['{']] else []) ++ [['}']]

def callItems (i : ℤ) (name : Text) (fragments : List Text) : List ToolCallItem :=
  { toolIndex := i, name := some name, parameters := [] } ::
    fragments.map fun t => { toolIndex := i, parameters := t }

lemma flatten_memberFragments {n : ℕ} (hn : 0 < n) (kvs : List (Text × Text)) :
    (memberFragments n kvs).flatten = kvs.flatMap fun kv => ", ".toList ++ dumpsMember true kv := by
  induction kvs generalizing n with
  | nil => rfl
  | cons kv kvs ih =>
    rw [memberFragments, if_neg hn.ne', if_pos hn, nil_append, flatten_cons,
      ih (Nat.succ_pos n), flatMap_cons]

variable {x : Text}

lemma intercalate_cons {sep : Text} {xs : List Text} :
    intercalate sep (x :: xs) = x ++ xs.flatMap fun y => sep ++ y := by
  induction xs generalizing x with
  | nil => simp [intercalate]
  | cons y ys ih =>
    rw [intercalate_cons_cons, ih, flatMap_cons, append_assoc, append_assoc]

/-- The fragments make up the object. -/
lemma flatten_argumentFragments (kvs : List (Text × Text)) :
    (argumentFragments kvs).flatten = dumpsObject true kvs := by
  rw [argumentFragments, flatten_append, flatten_append, dumpsObject]
  cases kvs with
  | nil => rfl
  | cons kv kvs =>
    rw [memberFragments, if_pos rfl, if_neg (lt_irrefl 0), if_neg (cons_ne_nil _ _),
      map_cons, intercalate_cons, flatMap_map]
    simp only [flatten_cons, flatten_nil, append_nil, nil_append,
      cons_append, flatten_memberFragments (Nat.succ_pos 0)]

/-! ## Streaming the blocks -/

variable {s : Text}

lemma angle_not_mem_blank (h : Blank s) : '<' ∉ s := h.not_mem rfl

/-- Whitespace inside of a block is dropped. -/
lemma scan_space (h : st.isInsideToolCall = true) (hs : Blank s) (z : Text) :
    (scanner py tools).scan st (s ++ z) = (scanner py tools).scan st z := by
  rw [scan_plain (angle_not_mem_blank hs), plain, h, if_pos rfl]
  exact map_id'

variable {w : Text}

lemma find_angle_close (h : '>' ∉ w) (r : Text) : find ['>'] (w ++ '>' :: r) = some w.length := by
  refine find_eq_some.2 ⟨occursAt_iff.2 ⟨w, r, by simp, rfl⟩, fun j hj hat => ?_⟩
  have hget := hat.getElem? Nat.one_pos
  rw [Nat.add_zero, getElem?_append_left hj] at hget
  exact h (mem_of_getElem? hget)

lemma drop_succ_length (w r : Text) (c : Char) : (w ++ c :: r).drop (w.length + 1) = r := by
  simp

/-- The state after a parameter. -/
def State.afterParam (st : State) : State :=
  { st with jsonStarted := true, currentToolParamCount := st.currentToolParamCount + 1 }

/-- What is emitted for a parameter. -/
def State.paramEvents (st : State) (kv : Text × Text) : List Event :=
  st.openJson ++ [.call
    { toolIndex := st.currentToolId
      parameters := if 0 < st.currentToolParamCount then ", ".toList ++ dumpsMember true kv
        else dumpsMember true kv }]

lemma scan_param (p : Param) (hin : st.isInsideToolCall = true)
    (hname : st.currentFuncName = some b.name) (z : Text) :
    (scanner py tools).scan st (p.render ++ z) = (py.dumps (b.valueOf py tools p)).bind fun t =>
        ((scanner py tools).scan st.afterParam z).map (.after (st.paramEvents (p.key, t))) := by
  have hmove : move py tools st (p.render ++ z) =
      (py.dumps (b.valueOf py tools p)).elim .fail fun t =>
        .go st.afterParam (p.space ++ z) (st.paramEvents (p.key, t)) := by
    have hfree : ∀ t ∈ endTags, ¬ t <:+: p.value := fun t ht =>
      p.value_free t (mem_append_left [toolCallEndToken] ht)
    have hvalue : convertParamValue py (cleanup p.value) p.key
        (getArgumentsConfig st.currentFuncName tools) = b.valueOf py tools p := by
      rw [hname]
      rfl
    rw [Param.render, Param.inner]
    simp only [append_assoc, cons_append]
    rw [move_parameter, moveParameter, find_angle_close p.key_plain.2]
    dsimp only
    rw [take_left, drop_succ_length, bestCand_closed hfree]
    dsimp only
    rw [take_left, hvalue, ← drop_drop, drop_left, drop_left]
    cases py.dumps (b.valueOf py tools p) <;> rfl
  cases ht : py.dumps (b.valueOf py tools p) with
  | none =>
    rw [ht] at hmove
    exact scan_fail _ hmove
  | some t =>
    rw [ht] at hmove
    have hspace : (scanner py tools).scan st.afterParam (p.space ++ z) = _ :=
      scan_space (show st.afterParam.isInsideToolCall = true from hin) p.space_blank z
    rw [bind_some, ← hspace]
    exact scan_go _ hmove

/-- A fragment of the arguments of the current call. -/
def State.fragment (st : State) (t : Text) : Event :=
  .call { toolIndex := st.currentToolId, parameters := t }

lemma paramEvents_eq (hstarted : st.jsonStarted = decide (0 < st.currentToolParamCount))
    (kv : Text × Text) (kvs : List (Text × Text)) :
    st.paramEvents kv ++ (memberFragments (st.currentToolParamCount + 1) kvs).map st.fragment =
      (memberFragments st.currentToolParamCount (kv :: kvs)).map st.fragment := by
  rw [memberFragments, map_append, map_cons, paramEvents, openJson, hstarted]
  rcases Nat.eq_zero_or_pos st.currentToolParamCount with h | h
  · rw [h]
    rfl
  · rw [if_neg h.ne', if_pos h, decide_eq_true h]
    rfl

/-- The parameters of a call, one after the other. -/
lemma scan_params (ps : List Param) (hin : st.isInsideToolCall = true)
    (hname : st.currentFuncName = some b.name)
    (hstarted : st.jsonStarted = decide (0 < st.currentToolParamCount)) (z : Text) :
    (scanner py tools).scan st (renderParams ps ++ z) = (b.members py tools ps).bind fun kvs =>
        ((scanner py tools).scan (afterParam^[ps.length] st) z).map
          (.after ((memberFragments st.currentToolParamCount kvs).map st.fragment)) := by
  induction ps generalizing st with
  | nil => exact map_id'.symm
  | cons p ps ih =>
    rw [renderParams, flatMap_cons, append_assoc, scan_param p hin hname, members_cons]
    cases py.dumps (b.valueOf py tools p) with
    | none => rfl
    | some t =>
      have hih := @ih st.afterParam hin hname (by simp [afterParam])
      rw [renderParams] at hih
      rw [bind_some, bind_some, hih]
      cases b.members py tools ps with
      | none => rfl
      | some kvs =>
        simp only [bind_some, map_some, Option.map_map, length_cons, iterate_succ_apply]
        refine congrArg (fun g => Option.map g _) ?_
        funext o
        rw [comp_apply, after_after, ← paramEvents_eq hstarted]
        rfl

lemma afterParams_eq (n : ℕ) : afterParam^[n] st =
    { st with
      jsonStarted := st.jsonStarted || decide (0 < n)
      currentToolParamCount := st.currentToolParamCount + n } := by
  induction n generalizing st with
  | zero => simp
  | succ n ih =>
    rw [iterate_succ_apply, ih]
    simp [afterParam, Nat.add_comm, Nat.add_left_comm]

/-- The state when the name of a call has been sent. -/
def State.inCall (st : State) (name : Text) : State where
  currentToolId := st.currentToolId + 1
  currentToolNameSent := true
  currentToolParamCount := 0
  jsonStarted := false
  isInsideToolCall := true
  currentFuncName := some name

/-- The state after a block with `n` parameters. -/
def State.afterBlock (st : State) (n : ℕ) : State where
  currentToolId := st.currentToolId + 1
  currentToolNameSent := true
  currentToolParamCount := n
  jsonStarted := true
  isInsideToolCall := false
  currentFuncName := none

/-- What is emitted for a block. -/
def blockEvents (i : ℤ) (b : Block) (kvs : List (Text × Text)) : List Event :=
  (callItems i b.name (argumentFragments kvs)).map .call ++ b.space₄.map .char

/-- `</function>ws</tool_call>ws` -/
lemma scan_end (name : Text) (n : ℕ) (z : Text) :
    (scanner py tools).scan (afterParam^[n] (st.inCall name))
        (functionEndToken ++ (b.space₃ ++ (toolCallEndToken ++ (b.space₄ ++ z)))) =
      ((scanner py tools).scan (st.afterBlock n) z).map
        (.after ((((if n = 0 then [['{']] else []) ++ [['}']]).map (st.inCall name).fragment) ++
          b.space₄.map .char)) := by
  have hend : move py tools (afterParam^[n] (st.inCall name))
      (functionEndToken ++ (b.space₃ ++ (toolCallEndToken ++ (b.space₄ ++ z)))) =
      .go { st.inCall name with
            jsonStarted := true, currentToolParamCount := n, currentFuncName := none }
        (b.space₃ ++ (toolCallEndToken ++ (b.space₄ ++ z)))
        (((if n = 0 then [['{']] else []) ++ [['}']]).map (st.inCall name).fragment) := by
    rw [move_functionEnd, moveFunctionEnd, afterParams_eq, openJson]
    rcases Nat.eq_zero_or_pos n with rfl | h
    · rfl
    · simp [inCall, fragment, h, h.ne']
  have hout : (scanner py tools).scan (st.afterBlock n) (b.space₄ ++ z) = _ :=
    scan_plain (angle_not_mem_blank b.space₄_blank) z
  rw [scan_of_move hend, scan_space rfl b.space₃_blank, scan_toolCallEnd]
  change ((scanner py tools).scan (st.afterBlock n) (b.space₄ ++ z)).map _ = _
  rw [hout, Option.map_map]
  refine congrArg (fun g => Option.map g _) ?_
  funext o
  rw [comp_apply, after_after]
  rfl

/-- A block: its events, unless a value cannot be written. -/
lemma scan_block (b : Block) (z : Text) :
    (scanner py tools).scan st (b.render ++ z) = (b.members py tools b.params).bind fun kvs =>
        ((scanner py tools).scan (st.afterBlock b.params.length) z).map
          (.after (blockEvents (st.currentToolId + 1) b kvs)) := by
  have hfun : move py tools { st with isInsideToolCall := true }
      (toolCallPrefix ++ (b.function ++ (functionEndToken ++
        (b.space₃ ++ (toolCallEndToken ++ (b.space₄ ++ z)))))) =
      .go (st.inCall b.name)
        (b.space₂ ++ (renderParams b.params ++ (functionEndToken ++
          (b.space₃ ++ (toolCallEndToken ++ (b.space₄ ++ z))))))
        [.call { toolIndex := st.currentToolId + 1, name := some b.name, parameters := [] }] := by
    rw [move_function, moveFunction, Block.function]
    simp only [append_assoc, cons_append]
    rw [find_angle_close b.name_plain.2]
    dsimp only
    rw [take_left, drop_succ_length]
    rfl
  rw [Block.render, Block.content]
  simp only [append_assoc]
  rw [scan_toolCallStart, scan_space rfl b.space₁_blank, scan_of_move hfun,
    scan_space rfl b.space₂_blank, scan_params b.params rfl rfl rfl]
  cases hkvs : b.members py tools b.params with
  | none => rfl
  | some kvs =>
    have hnil : b.params.length = 0 ↔ kvs = [] := by
      rw [← members_length hkvs, length_eq_zero_iff]
    rw [bind_some, bind_some, scan_end, Option.map_map, Option.map_map]
    refine congrArg (fun g => Option.map g _) ?_
    funext o
    rw [comp_apply, comp_apply, after_after, after_after,
      blockEvents, callItems, argumentFragments]
    simp only [hnil, map_append, List.map_map, map_cons, append_assoc, cons_append, nil_append]
    rfl

/-- Text without markers is emitted when a `<` follows. -/
lemma scan_text (hx : MarkerFree x) (z : Text) :
    (scanner py tools).scan st (x ++ '<' :: z) =
      ((scanner py tools).scan st ('<' :: z)).map (.after (st.plain x)) := by
  induction x with
  | nil =>
    rw [plain_nil]
    exact map_id'.symm
  | cons c x ih =>
    have hstep : (scanner py tools).scan st (c :: (x ++ '<' :: z)) =
        ((scanner py tools).scan st (x ++ '<' :: z)).map (.after (st.plain [c])) := by
      by_cases hc : c = '<'
      · subst hc
        -- a second `<` follows, so this one is no part of a marker
        have hin : ∀ {t}, t ∈ possibleTags → ¬ '<' :: (x ++ '<' :: z) <+: t := by
          rintro t ht ⟨y, rfl⟩
          exact tag_tail ht (by simp)
        have hno : ∀ t ∈ actionTags, ¬ t <+: '<' :: (x ++ '<' :: z) := by
          intro t ht hp
          have ht' := actionTags_subset ht
          rcases prefix_or_prefix_of_prefix hp (prefix_append ('<' :: x) ('<' :: z))
            with h | ⟨v, rfl⟩
          · exact hx t ht' h.isInfix
          · rw [cons_append, cons_prefix_cons] at hp
            rcases v with _ | ⟨d, v⟩
            · exact hx _ ht' (by simp)
            have hd := (prefix_append_right_inj x).1 hp.2
            rw [cons_prefix_cons] at hd
            exact tag_tail ht' (by simp [hd.1])
        exact scan_of_move ((move_angle hno).trans (if_neg fun ⟨t, ht, hp⟩ => hin ht hp))
      · exact scan_plain (x := [c]) (by simpa using Ne.symm hc) (x ++ '<' :: z)
    rw [cons_append, hstep, ih hx.tail, Option.map_map]
    refine congrArg (fun g => Option.map g _) ?_
    funext o
    rw [comp_apply, after_after, ← plain_append]
    rfl

/-- The blocks with the members of their arguments, if all values can be written. -/
def collect (py : Builtins V) (tools : List Tool) :
    List Block → Option (List (Block × List (Text × Text)))
  | [] => some []
  | b :: bs =>
    (b.members py tools b.params).bind fun kvs => (collect py tools bs).map fun l => (b, kvs) :: l

/-- What is emitted for blocks. -/
def blocksEvents : ℤ → List (Block × List (Text × Text)) → List Event
  | _, [] => []
  | i, x :: l => blockEvents i x.1 x.2 ++ blocksEvents (i + 1) l

/-- The calls of a text, one after the other. -/
lemma scan_blocks (bs : List Block) :
    ((scanner py tools).scan st (renderBlocks bs)).map Scanned.events =
      (collect py tools bs).map (blocksEvents (st.currentToolId + 1)) := by
  induction bs generalizing st with
  | nil =>
    rfl
  | cons b bs ih =>
    rw [renderBlocks, flatMap_cons, scan_block, collect]
    cases b.members py tools b.params with
    | none => rfl
    | some kvs =>
      have hih := @ih (st.afterBlock b.params.length)
      rw [renderBlocks] at hih
      rw [bind_some, bind_some, Option.map_map, Option.map_map]
      cases hscan : (scanner py tools).scan (st.afterBlock b.params.length)
          (bs.flatMap Block.render) with
      | none =>
        rw [hscan] at hih
        cases hc : collect py tools bs with
        | none => rfl
        | some l => rw [hc] at hih; cases hih
      | some o =>
        rw [hscan] at hih
        cases hc : collect py tools bs with
        | none => rw [hc] at hih; cases hih
        | some l =>
          rw [hc, map_some, map_some, Option.some.injEq] at hih
          rw [map_some, map_some, comp_apply, comp_apply, Scanned.after, hih]
          rfl

/-! ## The regular expressions on the blocks -/

variable {t : Text}

/-- Parameters contain no marker but their own. -/
lemma params_free (ht : t ∈ possibleTags) (h1 : t ≠ parameterPrefix)
    (h2 : t ≠ parameterEndToken) (hps : ∀ p ∈ ps, ¬ t <:+: p.value) : ¬ t <:+: renderParams ps := by
  induction ps with
  | nil =>
    intro h
    exact absurd (mem_of_tag_isInfix ht h) (not_mem_nil)
  | cons p ps ih =>
    have hkey : '<' ∉ p.key ++ ['>'] := by
      simpa using p.key_plain.1
    have hp := hps p mem_cons_self
    have hrest := ih fun q hq => hps q (mem_cons_of_mem _ hq)
    have hrender : renderParams (p :: ps) = parameterPrefix ++ ((p.key ++ ['>']) ++
        (p.value ++ (parameterEndToken ++ (p.space ++ renderParams ps)))) := by
      simp [renderParams, Param.render, Param.inner]
    rw [hrender, tag_infix_tag_append ht (by decide), tag_infix_append_plain ht hkey,
      tag_infix_append_angle ht rfl, tag_infix_tag_append ht (by decide),
      tag_infix_append_plain ht (angle_not_mem_blank p.space_blank)]
    simp [h1, h2, hp, hrest]

variable {start : Text} {stop : Text → Option (ℕ × ℕ)}

lemma findall_nil {text : Text} (h : ¬ start <:+: text) (n : ℕ) :
    findall start stop n text = [] := by
  cases n with
  | zero => rfl
  | succ n => rw [findall, find_eq_none.2 h]

/-- One match: `a` before it, `w` in the group, `z` consumed after the group. -/
lemma findall_cons {a z r : Text} (ht : start ∈ possibleTags) (ha : ¬ start <:+: a)
    (hstop : stop (w ++ (z ++ r)) = some (w.length, z.length)) (n : ℕ) :
    findall start stop (n + 1) (a ++ (start ++ (w ++ (z ++ r)))) = w :: findall start stop n r := by
  simp_all [findall, find_tag]

lemma blank_free (ht : t ∈ possibleTags) (hs : Blank s) : ¬ t <:+: s :=
  fun h => angle_not_mem_blank hs (mem_of_tag_isInfix ht h)

lemma function_free (ht : t ∈ possibleTags) (h1 : t ≠ parameterPrefix)
    (h2 : t ≠ parameterEndToken) (b : Block) (hps : ∀ p ∈ b.params, ¬ t <:+: p.value) :
    ¬ t <:+: b.function := by
  have hname : '<' ∉ b.name ++ '>' :: b.space₂ := by
    simpa using ⟨b.name_plain.1, angle_not_mem_blank b.space₂_blank⟩
  have heq : b.function = (b.name ++ '>' :: b.space₂) ++ renderParams b.params := by
    simp [Block.function]
  rw [heq, tag_infix_append_plain ht hname]
  exact params_free ht h1 h2 hps

lemma content_free (b : Block) : ¬ toolCallEndToken <:+: b.content := by
  have ht : toolCallEndToken ∈ possibleTags := by decide
  have hfun := function_free ht (by decide) (by decide) b fun p _ => p.value_free _ (by decide)
  have hspace := blank_free ht b.space₃_blank
  rw [Block.content, tag_infix_append_plain ht (angle_not_mem_blank b.space₁_blank),
    tag_infix_tag_append ht (by decide), tag_infix_append_angle ht rfl,
    tag_infix_tag_append ht (by decide)]
  rintro (h | h | h | h)
  · exact absurd h (by decide)
  · exact hfun h
  · exact absurd h (by decide)
  · exact hspace h

/-- `tool_call_regex` finds the blocks. -/
lemma findall_blocks (bs : List Block) (hx : ¬ toolCallStartToken <:+: x) (n : ℕ)
    (hn : bs.length ≤ n) :
    findall toolCallStartToken
        (fun rest => (find toolCallEndToken rest).map fun p => (p, toolCallEndToken.length)) n
        (x ++ renderBlocks bs) = bs.map Block.content := by
  induction bs generalizing x n with
  | nil =>
    rw [renderBlocks, flatMap_nil, append_nil]
    exact findall_nil hx n
  | cons b bs ih =>
    obtain ⟨n, rfl⟩ : ∃ k, n = k + 1 := ⟨n - 1, by rw [length_cons] at hn; omega⟩
    have hrender : renderBlocks (b :: bs) = toolCallStartToken ++ (b.content ++
        (toolCallEndToken ++ (b.space₄ ++ renderBlocks bs))) := by
      simp [renderBlocks, Block.render]
    rw [hrender, findall_cons (by decide) hx, map_cons,
      ih (blank_free (by decide) b.space₄_blank) n (by rw [length_cons] at hn; omega)]
    rw [find_tag (by decide) (content_free b), map_some]

/-- The expression for a function finds the one that the block has. -/
lemma toolCallFunctionRegex_content (b : Block) :
    toolCallFunctionRegex b.content = [b.function] := by
  have ht : functionEndToken ∈ possibleTags := by decide
  have hfun := function_free ht (by decide) (by decide) b fun p _ => p.value_free _ (by decide)
  have hpos : 0 < b.content.length := length_pos_of_ne_nil
    (append_ne_nil_of_right_ne_nil _ (tag_append_ne_nil (by decide) _))
  obtain ⟨n, hn⟩ : ∃ n, b.content.length = n + 1 := ⟨b.content.length - 1, by omega⟩
  rw [toolCallFunctionRegex, hn, Block.content,
    findall_cons (by decide) (blank_free (by decide) b.space₁_blank),
    findall_nil (blank_free (by decide) b.space₃_blank)]
  rw [find_tag ht hfun]

/-- `tool_call_parameter_regex` finds the parameters. -/
lemma findall_params (ps : List Param) (hx : Blank x) (n : ℕ) (hn : ps.length ≤ n) :
    findall parameterPrefix (fun rest => some ((bestCand rest).getD (dollar rest, 0))) n
        (x ++ renderParams ps) = ps.map Param.inner := by
  induction ps generalizing x n with
  | nil =>
    rw [renderParams, flatMap_nil, append_nil]
    exact findall_nil (blank_free (by decide) hx) n
  | cons p ps ih =>
    obtain ⟨n, rfl⟩ : ∃ k, n = k + 1 := ⟨n - 1, by rw [length_cons] at hn; omega⟩
    have hrender : renderParams (p :: ps) = parameterPrefix ++ (p.inner ++
        (parameterEndToken ++ (p.space ++ renderParams ps))) := by
      simp [renderParams, Param.render]
    have hinner : ∀ t ∈ endTags, ¬ t <:+: p.inner := by
      intro t ht
      have heq : p.inner = (p.key ++ ['>']) ++ p.value := by simp [Param.inner]
      rw [heq, tag_infix_append_plain (endTags_subset ht) (by simpa using p.key_plain.1)]
      exact p.value_free t (mem_append_left [toolCallEndToken] ht)
    rw [hrender, findall_cons (by decide) (blank_free (by decide) hx), map_cons,
      ih p.space_blank n (by rw [length_cons] at hn; omega)]
    rw [bestCand_closed hinner]
    rfl

lemma length_le_length_flatMap {α : Type} {f : α → Text} (hf : ∀ a, f a ≠ []) (l : List α) :
    l.length ≤ (l.flatMap f).length := by
  induction l with
  | nil => exact Nat.zero_le _
  | cons a l ih =>
    have := length_pos_of_ne_nil (hf a)
    rw [flatMap_cons, length_append, length_cons]
    omega

lemma foldl_setParam (b : Block) (ps : List Param) (d : List (Text × V))
    (hnd : (d.map Prod.fst ++ ps.map Param.key).Nodup) :
    (ps.map Param.inner).foldl (setParam py tools b.name) d =
      d ++ ps.map fun p => (p.key, b.valueOf py tools p) := by
  induction ps generalizing d with
  | nil => simp
  | cons p ps ih =>
    have hnot : p.key ∉ d.map Prod.fst := fun hmem =>
      (nodup_append.1 hnd).2.2 _ hmem _ (by simp) rfl
    rw [map_cons, foldl_cons, setParam, Param.inner, find_angle_close p.key_plain.2]
    dsimp only
    rw [take_left, drop_succ_length, dictSet_of_not_mem hnot, ih]
    · rw [append_assoc]
      rfl
    · simpa using hnd

/-- The parameters that the other reader finds. -/
lemma parsedParams_eq (b : Block) :
    parsedParams py tools b.name (b.space₂ ++ renderParams b.params) =
      b.params.map fun p => (p.key, b.valueOf py tools p) := by
  have hlen : b.params.length ≤ (b.space₂ ++ renderParams b.params).length := by
    have := length_le_length_flatMap (f := Param.render)
      (fun p => tag_append_ne_nil (by decide) _) b.params
    rw [length_append, renderParams]
    omega
  rw [parsedParams, toolCallParameterRegex, findall_params b.params b.space₂_blank _ hlen,
    foldl_setParam b b.params [] (by simpa using b.keys_nodup), nil_append]

/-- The call that the other reader makes of a block. -/
lemma functionCall_eq (b : Block) :
    functionCall py tools b.function =
      (b.members py tools b.params).map fun kvs => some (b.name, dumpsObject false kvs) := by
  rw [functionCall, Block.function, find_angle_close b.name_plain.2]
  dsimp only
  rw [take_left, drop_succ_length, parsedParams_eq, dumpsDict, mapM_map, Option.map_map]
  rfl

lemma mapM_functionCall (bs : List Block) :
    (bs.map Block.function).mapM (functionCall py tools) = (collect py tools bs).map fun l =>
        l.map fun x => some (x.1.name, dumpsObject false x.2) := by
  induction bs with
  | nil => rfl
  | cons b bs ih =>
    rw [map_cons, mapM_cons, ih, functionCall_eq, collect]
    cases b.members py tools b.params with
    | none => rfl
    | some kvs => cases collect py tools bs <;> rfl

variable {bs : List Block}

/-- `detect_and_parse` on the blocks. -/
lemma detectAndParse_eq (hx : MarkerFree x) (hbs : bs ≠ []) :
    detectAndParse py tools (x ++ renderBlocks bs) = match collect py tools bs with
      | none => { normalText := x ++ renderBlocks bs }
      | some l =>
        { normalText := x
          calls := l.mapIdx fun i y =>
            { toolIndex := i, name := some y.1.name, parameters := dumpsObject false y.2 } } := by
  have hstart : ¬ toolCallStartToken <:+: x := hx _ (by decide)
  obtain ⟨b, bs', rfl⟩ := exists_cons_of_ne_nil hbs
  have hrender : ∃ r, renderBlocks (b :: bs') = toolCallStartToken ++ r := by
    exact ⟨_, rfl⟩
  have hfind : find toolCallStartToken (x ++ renderBlocks (b :: bs')) = some x.length := by
    obtain ⟨r, hr⟩ := hrender
    rw [hr, find_tag (by decide) hstart]
  have hlen : (b :: bs').length ≤ (x ++ renderBlocks (b :: bs')).length := by
    have := length_le_length_flatMap (f := Block.render)
      (fun b => tag_append_ne_nil (by decide) _) (b :: bs')
    rw [length_append, renderBlocks]
    omega
  have hfuns : (List.map Block.content (b :: bs')).flatMap toolCallFunctionRegex =
      (b :: bs').map Block.function := by
    rw [flatMap_map]
    simp only [toolCallFunctionRegex_content]
    exact map_eq_flatMap.symm
  rw [detectAndParse, if_neg (not_not.2 (find_isSome.1 (by rw [hfind]; rfl))), toolCallRegex,
    findall_blocks (b :: bs') hstart _ hlen]
  dsimp only
  rw [if_neg (fun h => absurd h.1 (by simp)), hfuns, mapM_functionCall, hfind]
  cases collect py tools (b :: bs') with
  | none => rfl
  | some l =>
    have hcalls : (l.map fun y => some (y.1.name, dumpsObject false y.2)).filterMap id =
        l.map fun y => (y.1.name, dumpsObject false y.2) := by
      rw [filterMap_map, ← filterMap_eq_map]
      rfl
    dsimp only [map_some, getD_some]
    rw [take_left, hcalls]
    refine congrArg (StreamingParseResult.mk x) (ext_getElem? fun i => ?_)
    simp only [getElem?_mapIdx, getElem?_map, Option.map_map]
    rfl

/-! ## Streaming and parsing -/

/-- Two texts of one JSON object: the same members in the same order, their values written by
`json.dumps`, the keys with and without escaped non-ASCII characters. -/
def SameObject (py : Builtins V) (a b : Text) : Prop :=
  ∃ kvs : List (Text × Text), (∀ kv ∈ kvs, ∃ v, py.dumps v = some kv.2) ∧
    a = dumpsObject true kvs ∧ b = dumpsObject false kvs

/-- A call: its name, the fragments that are streamed, and the arguments that are parsed. -/
structure Sent where
  name : Text
  fragments : List Text
  arguments : Text

def Event.isChar : Event → Bool
  | .char _ => true
  | .call _ => false

/-- The events of a stream are those of the calls of a result: the blocks' calls in order, under the
indices 0, 1, 2, ..., for each the name and then fragments of an object equal to its arguments; and
the text before the first call is the normal text. -/
def StreamsAs (py : Builtins V) (bs : List Block) (events : List Event)
    (result : StreamingParseResult) : Prop :=
  normalText (events.takeWhile isChar) = result.normalText ∧
    ∃ sent : List Sent, sent.map Sent.name = bs.map Block.name ∧
      callsOf events = (sent.mapIdx fun i s => callItems i s.name s.fragments).flatten ∧
      result.calls = (sent.mapIdx fun i s =>
        { toolIndex := i, name := some s.name, parameters := s.arguments }) ∧
      ∀ s ∈ sent, SameObject py s.fragments.flatten s.arguments

lemma collect_isSome (bs : List Block) :
    (collect py tools bs).isSome = true ↔
      ∀ b ∈ bs, ∀ p ∈ b.params, (py.dumps (b.valueOf py tools p)).isSome = true := by
  induction bs with
  | nil => simp [collect]
  | cons b bs ih =>
    rw [collect, forall_mem_cons, ← ih, ← members_isSome]
    cases b.members py tools b.params <;> simp

lemma members_dumps (h : b.members py tools ps = some kvs) :
    ∀ kv ∈ kvs, ∃ v, py.dumps v = some kv.2 := by
  induction ps generalizing kvs with
  | nil => cases h; simp
  | cons p ps ih =>
    rw [members_cons, bind_eq_some_iff] at h
    obtain ⟨t, ht, h⟩ := h
    obtain ⟨kvs', hkvs', rfl⟩ := map_eq_some_iff.1 h
    exact forall_mem_cons.2 ⟨⟨_, ht⟩, ih hkvs'⟩

variable {l : List (Block × List (Text × Text))}

lemma collect_spec (h : collect py tools bs = some l) :
    l.map Prod.fst = bs ∧ ∀ x ∈ l, ∀ kv ∈ x.2, ∃ v, py.dumps v = some kv.2 := by
  induction bs generalizing l with
  | nil => cases h; simp
  | cons b bs ih =>
    rw [collect, bind_eq_some_iff] at h
    obtain ⟨kvs, hkvs, h⟩ := h
    obtain ⟨l', hl', rfl⟩ := map_eq_some_iff.1 h
    obtain ⟨hfst, hall⟩ := ih hl'
    exact ⟨by rw [map_cons, hfst], forall_mem_cons.2 ⟨members_dumps hkvs, hall⟩⟩

lemma callsOf_map_call (items : List ToolCallItem) : callsOf (items.map .call) = items := by
  rw [callsOf, flatMap_map]
  exact flatMap_singleton' items

lemma callsOf_map_char (x : Text) : callsOf (x.map .char) = [] := by
  rw [callsOf, flatMap_map, flatMap_eq_nil_iff]
  exact fun _ _ => rfl

/-- The items that the events of the blocks give. -/
lemma callsOf_blocksEvents (n : ℕ) (l : List (Block × List (Text × Text))) :
    callsOf (blocksEvents n l) =
      (l.mapIdx fun i x => callItems (n + i) x.1.name (argumentFragments x.2)).flatten := by
  induction l generalizing n with
  | nil => rfl
  | cons x l ih =>
    have hidx : ∀ i, (n : ℤ) + 1 + i = n + (i + 1 : ℕ) := fun i => by omega
    have hih := ih (n + 1)
    rw [Int.natCast_add, Int.natCast_one] at hih
    simp only [hidx] at hih
    rw [blocksEvents, callsOf_append, blockEvents, callsOf_append, callsOf_map_call,
      callsOf_map_char, append_nil, mapIdx_cons, flatten_cons, hih]
    rfl

lemma renderBlocks_head (hbs : bs ≠ []) : ∃ r, renderBlocks bs = '<' :: r := by
  obtain ⟨b, bs, rfl⟩ := exists_cons_of_ne_nil hbs
  exact ⟨_, rfl⟩

/-- The events of the whole text. -/
lemma scan_textBlocks (hx : MarkerFree x) (hbs : bs ≠ []) :
    ((scanner py tools).scan {} (x ++ renderBlocks bs)).map Scanned.events =
      (collect py tools bs).map fun l => x.map .char ++ blocksEvents 0 l := by
  have hblocks : ((scanner py tools).scan {} (renderBlocks bs)).map Scanned.events =
      (collect py tools bs).map (blocksEvents 0) := scan_blocks bs
  obtain ⟨r, hr⟩ := renderBlocks_head hbs
  rw [hr, scan_text hx, ← hr, Option.map_map]
  cases hscan : (scanner py tools).scan {} (renderBlocks bs) with
  | none =>
    rw [hscan, map_none] at hblocks
    rw [map_eq_none_iff.1 hblocks.symm]
    rfl
  | some o =>
    rw [hscan, map_some] at hblocks
    obtain ⟨l, hl, hev⟩ := map_eq_some_iff.1 hblocks.symm
    rw [hl, map_some, map_some, hev]
    rfl

lemma takeWhile_isChar (x : Text) :
    (x.map char ++ blocksEvents 0 l).takeWhile isChar = x.map .char := by
  rw [takeWhile_append_of_pos (by simp [isChar])]
  cases l with
  | nil => exact append_nil _
  | cons y l => exact append_nil _

/-- What is streamed and what is parsed for the blocks. -/
def sentOf (y : Block × List (Text × Text)) : Sent where
  name := y.1.name
  fragments := argumentFragments y.2
  arguments := dumpsObject false y.2

/-- **Streaming gives what `detect_and_parse` gives, however the text is cut into chunks, exactly if
all values can be written.** -/
theorem streams_iff_dumps (py : Builtins V) (tools : List Tool) {x : Text} (hx : MarkerFree x)
    {bs : List Block} (hbs : bs ≠ []) {chunks : List Text}
    (hchunks : chunks.flatten = x ++ renderBlocks bs) :
    (∃ o, (scanner py tools).feedAll {} [] chunks = some o ∧
      StreamsAs py bs o.events (detectAndParse py tools chunks.flatten)) ↔
    ∀ b ∈ bs, ∀ p ∈ b.params, (py.dumps (b.valueOf py tools p)).isSome = true := by
  have hscan : ((scanner py tools).scan {} (x ++ renderBlocks bs)).map Scanned.events = _ :=
    scan_textBlocks hx hbs
  rw [feedAll_eq_scan, hchunks, detectAndParse_eq hx hbs, ← collect_isSome]
  cases hc : collect py tools bs with
  | none =>
    grind
  | some l =>
    rw [hc, map_some, map_eq_some_iff] at hscan
    obtain ⟨o, ho, hev⟩ := hscan
    obtain ⟨hfst, hdumps⟩ := collect_spec hc
    refine iff_of_true ⟨o, ho, ?_, l.map sentOf, ?_, ?_, ?_, ?_⟩ rfl
    · rw [hev, takeWhile_isChar]
      exact show normalText (plain {} x) = x from normalText_plain rfl x
    · rw [← hfst, List.map_map, List.map_map]
      rfl
    · rw [hev, callsOf_append, callsOf_map_char, nil_append]
      refine (callsOf_blocksEvents 0 l).trans
        (congrArg flatten (ext_getElem? fun i => ?_))
      simp only [getElem?_mapIdx, getElem?_map, Option.map_map, Int.natCast_zero, Int.zero_add]
      rfl
    · refine ext_getElem? fun i => ?_
      simp only [getElem?_mapIdx, getElem?_map, Option.map_map]
      rfl
    · intro s hs
      obtain ⟨y, hy, rfl⟩ := mem_map.1 hs
      exact ⟨y.2, hdumps y hy, flatten_argumentFragments y.2, rfl⟩

/-! ### A sample -/

/-- Values as JSON texts; `{1, 2}` is a set, which `json.dumps` does not write. -/
def sampleBuiltins : Builtins Text where
  lower := id
  null := "null".toList
  str := dumpsStr false
  bool b := if b then "true".toList else "false".toList
  int t := if t.all Char.isDigit then some t else none
  float _ := none
  isInteger _ := false
  truncate := id
  jsonLoads _ := none
  literalEval t := if t = "\x7b1, 2\x7d".toList then some "set".toList else none
  dumps v := if v = "set".toList then none else some v

def sampleFunctions : List Tool :=
  [⟨"f".toList, [("n".toList, "integer".toList), ("s".toList, "object".toList)]⟩]

def sampleParam (key value : Text) (hkey : Plain key)
    (hvalue : ∀ t ∈ [parameterEndToken, parameterPrefix, functionEndToken, toolCallEndToken],
      ¬ t <:+: value) : Param where
  key := key
  value := value
  space := ['\n']
  key_plain := hkey
  value_free := hvalue
  space_blank := by simp [Blank, isSpace]

def sampleBlock (p : Param) : Block where
  space₁ := ['\n']
  name := "f".toList
  space₂ := ['\n']
  params := [p]
  space₃ := ['\n']
  space₄ := []
  name_plain := by unfold Plain; decide
  keys_nodup := by simp
  space₁_blank := by simp [Blank, isSpace]
  space₂_blank := by simp [Blank, isSpace]
  space₃_blank := by simp [Blank, isSpace]
  space₄_blank := by simp [Blank, isSpace]

/-- An integer. -/
def numberParam : Param :=
  sampleParam "n".toList "12".toList (by unfold Plain; decide) (by decide)

/-- A set, for a parameter of type object. -/
def setParameter : Param :=
  sampleParam "s".toList "\x7b1, 2\x7d".toList (by unfold Plain; decide) (by decide)

/-- A call with a number, one character at a time. -/
theorem streams_number :
    ∃ o, (scanner sampleBuiltins sampleFunctions).feedAll {} []
        (("a<".toList ++ renderBlocks [sampleBlock numberParam]).map fun c => [c]) = some o ∧
      StreamsAs sampleBuiltins [sampleBlock numberParam] o.events
        (detectAndParse sampleBuiltins sampleFunctions
          (("a<".toList ++ renderBlocks [sampleBlock numberParam]).map fun c => [c]).flatten) :=
  (streams_iff_dumps sampleBuiltins sampleFunctions (x := "a<".toList) (by decide)
    (cons_ne_nil _ _) (by decide +kernel)).2 (by decide +kernel)

/-- With a set streaming raises, and `detect_and_parse` gives the text back without a call. -/
theorem set_not_streamed :
    ((scanner sampleBuiltins sampleFunctions).feedAll {} []
        [renderBlocks [sampleBlock setParameter]]).isNone = true ∧
      detectAndParse sampleBuiltins sampleFunctions (renderBlocks [sampleBlock setParameter]) =
        { normalText := renderBlocks [sampleBlock setParameter], calls := [] } := by
  decide +kernel

end Sglang.Tools.Qwen
