import Sglang.Tools.DsmlTags
import Sglang.Tools.QwenChunks

/-!
# Text without markers

Both detectors hold text back that may be the beginning of a marker, and neither releases it when
the stream ends.  What is held back at the end is lost.  For Qwen3-Coder this is the longest end of
the text that a marker begins with.  The DSML detectors look for pieces of a marker anywhere in the
buffer, so that one such piece holds all the rest of the stream back.

* `held_eq_nil_iff`: when the DSML detectors hold nothing back at the end.
* `plain_text_kept_iff`: for both detectors, the text of a stream without markers arrives whole
  exactly if nothing is held back at its end.
* `last_angle_lost`: a text that ends with `<` does not.
-/

namespace Sglang.Tools
open Lib List Option FunctionCallParser List.IsPrefix Dsml Qwen Scanner

/-! ## Qwen3-Coder -/

namespace Qwen
variable {V : Type} {py : Builtins V} {tools : List Tool} {st : State}

/-- A text without any of the six markers. -/
def MarkerFree (x : Text) : Prop := ∀ t ∈ possibleTags, ¬ t <:+: x

instance (x : Text) : Decidable (MarkerFree x) :=
  inferInstanceAs (Decidable (∀ t ∈ possibleTags, ¬ t <:+: x))

variable {x : Text}

lemma MarkerFree.tail {c : Char} (h : MarkerFree (c :: x)) : MarkerFree x :=
  fun t ht hin => h t ht (hin.trans (suffix_cons c x).isInfix)

/-- A text that ends with the beginning of a marker. -/
def EndsInMarker (x : Text) : Prop := ∃ r, r ≠ [] ∧ r <:+ x ∧ ∃ t ∈ possibleTags, r <+: t

instance (x : Text) : Decidable (EndsInMarker x) :=
  decidable_of_iff (∃ r ∈ x.tails, r ≠ [] ∧ ∃ t ∈ possibleTags, r <+: t) <| by
    simp only [mem_tails, EndsInMarker, and_left_comm]

/-- A character that begins no marker has no part in one. -/
lemma endsInMarker_cons {c : Char} (h : ¬ ∃ t ∈ possibleTags, c :: x <+: t) :
    EndsInMarker (c :: x) ↔ EndsInMarker x := by
  constructor
  · rintro ⟨r, hr, hsuf, t, ht, hp⟩
    rcases suffix_cons_iff.1 hsuf with rfl | hsuf'
    · exact absurd ⟨t, ht, hp⟩ h
    · exact ⟨r, hr, hsuf', t, ht, hp⟩
  · rintro ⟨r, hr, hsuf, t, ht, hp⟩
    exact ⟨r, hr, hsuf.trans (suffix_cons c x), t, ht, hp⟩

/-- A text without markers is emitted up to an end that a marker may begin with. -/
lemma scan_markerFree (hx : MarkerFree x) :
    ∃ a r, x = a ++ r ∧ (scanner py tools).scan st x = some ⟨st.plain a, st, r⟩ ∧
      (r = [] ↔ ¬ EndsInMarker x) := by
  induction x with
  | nil =>
    refine ⟨[], [], rfl, ?_, iff_of_true rfl ?_⟩
    · rw [scan_nil, plain_nil]
    · rintro ⟨r, hr, hsuf, _⟩
      exact hr (suffix_nil.1 hsuf)
  | cons c z ih =>
    obtain ⟨a, r, rfl, hscan, hr⟩ := ih hx.tail
    have hemit : ∀ {b}, (scanner py tools).scan st (c :: (a ++ r)) =
          ((scanner py tools).scan st (a ++ r)).map (.after (st.plain [b])) → b = c →
        (¬ ∃ t ∈ possibleTags, c :: (a ++ r) <+: t) →
        ∃ a' r', c :: (a ++ r) = a' ++ r' ∧
          (scanner py tools).scan st (c :: (a ++ r)) = some ⟨st.plain a', st, r'⟩ ∧
          (r' = [] ↔ ¬ EndsInMarker (c :: (a ++ r))) := by
      rintro _ h rfl hpot
      refine ⟨_ :: a, r, rfl, ?_, ?_⟩
      · rw [h, hscan, map_some, Scanned.after, ← plain_append]
        rfl
      · rw [endsInMarker_cons hpot]
        exact hr
    by_cases hc : c = '<'
    · subst hc
      have hno : ∀ t ∈ actionTags, ¬ t <+: '<' :: (a ++ r) :=
        fun t ht hp => hx t (actionTags_subset ht) hp.isInfix
      by_cases hpot : ∃ t ∈ possibleTags, '<' :: (a ++ r) <+: t
      · refine ⟨[], '<' :: (a ++ r), rfl, ?_, iff_of_false (cons_ne_nil _ _) ?_⟩
        · rw [scan_wait _ ((move_angle hno).trans (if_pos hpot)), plain_nil]
        · exact not_not.2 ⟨_, cons_ne_nil _ _, suffix_rfl, hpot⟩
      · exact hemit (scan_go _ ((move_angle hno).trans (if_neg hpot))) rfl hpot
    · refine hemit (scan_plain (x := [c]) (by simpa using Ne.symm hc) (a ++ r)) rfl ?_
      rintro ⟨t, ht, hp⟩
      have hhead := tag_head ht
      obtain ⟨y, rfl⟩ := hp
      exact hc (Option.some.inj hhead)

/-! ### The parser -/

lemma normalText_append (a b : List Event) :
    normalText (a ++ b) = normalText a ++ normalText b := flatMap_append

lemma callsOf_append (a b : List Event) : callsOf (a ++ b) = callsOf a ++ callsOf b :=
  flatMap_append

/-- One chunk is a scan of what is in the buffer. -/
lemma parseStreamingIncrement_eq (d : Buffered) (c : Text) :
    parseStreamingIncrement py tools d c =
      ((scanner py tools).scan d.st (d.buffer ++ c)).map fun o =>
        ({ normalText := normalText o.events, calls := callsOf o.events }, ⟨o.st, o.rest⟩) := by
  rw [parseStreamingIncrement]
  split_ifs with hnil
  · rw [hnil, scan_nil]
    obtain ⟨st, buffer⟩ := d
    obtain rfl : buffer = [] := (append_eq_nil_iff.1 hnil).1
    rfl
  · rfl

lemma parseStream_eq_feedAll (htools : tools ≠ []) (d : Buffered) (cs : List Text) :
    FunctionCallParser.parseStream ⟨detector py, tools⟩ d cs =
      ((scanner py tools).feedAll d.st d.buffer cs).map fun o =>
        (normalText o.events, callsOf o.events) := by
  induction cs generalizing d with
  | nil => rw [parseStream_nil]; rfl
  | cons c cs ih =>
    rw [feedAll, parseStream, parseStreamChunk_eq _ htools]
    have hinc : (detector py).parseStreamingIncrement tools d c = _ :=
      parseStreamingIncrement_eq d c
    rw [hinc]
    cases (scanner py tools).scan d.st (d.buffer ++ c) with
    | none => rfl
    | some o =>
      rw [map_some, map_some, bind_some]
      dsimp only [bind_eq_bind, bind_some]
      rw [ih]
      cases (scanner py tools).feedAll o.st o.rest cs with
      | none => rfl
      | some o' =>
        simp only [map_some, bind_some, Scanned.after, normalText_append, callsOf_append]

/-- The parser's results are those of the whole text in one chunk. -/
lemma parseStream_eq (htools : tools ≠ []) (cs : List Text) :
    FunctionCallParser.parseStream ⟨detector py, tools⟩ {} cs =
      ((scanner py tools).scan {} cs.flatten).map fun o =>
        (normalText o.events, callsOf o.events) := by
  rw [parseStream_eq_feedAll htools, feedAll_eq_scan]

lemma normalText_plain (h : st.isInsideToolCall = false) (a : Text) :
    normalText (st.plain a) = a := by
  rw [State.plain, h, if_neg Bool.false_ne_true, normalText, flatMap_map]
  exact flatMap_singleton' a

lemma callsOf_plain (a : Text) : callsOf (st.plain a) = [] := by
  rw [State.plain]
  split
  · rfl
  · rw [callsOf, flatMap_map, flatMap_eq_nil_iff]
    exact fun _ _ => rfl

end Qwen

/-! ## DSML -/

namespace Dsml
variable {V : Type} {js : Json V} {f : Format} {st : State}

/-- The complete markers: opening and closing tags of the block, of an invoke and of a
parameter. -/
inductive IsMarker (f : Format) : Text → Prop
  | bot : IsMarker f f.botToken
  | eot : IsMarker f f.eotToken
  | invokeStart {sp w sp' close : Text} (hne : sp ≠ []) (hsp : Blank sp) (hw : Quotable w)
      (hsp' : Blank sp') (hclose : close ∈ ["/>".toList, ['>']]) :
      IsMarker f (invokeOpening f sp w sp' close)
  | invokeEnd : IsMarker f f.invokeEndToken
  | parameterStart {sp w sp₂ ty sp₃ : Text} (hne : sp ≠ []) (hsp : Blank sp) (hw : Quotable w)
      (hne₂ : sp₂ ≠ []) (hsp₂ : Blank sp₂) (hty : Quotable ty) (hsp₃ : Blank sp₃) :
      IsMarker f (f.parameterStart ++ sp ++ attrText "name".toList w ++ sp₂ ++
        attrText "string".toList ty ++ sp₃ ++ ['>'])
  | parameterEnd : IsMarker f f.parameterEnd

def MarkerFree (f : Format) (x : Text) : Prop := ∀ t, IsMarker f t → ¬ t <:+: x

variable {x : Text}

lemma MarkerFree.mono {y : Text} (h : MarkerFree f y) (hxy : x <:+: y) : MarkerFree f x :=
  fun t ht hin => h t ht (hin.trans hxy)

/-- Without a marker there is no call to find. -/
lemma MarkerFree.searchInvoke_eq_none (h : MarkerFree f x) : searchInvoke f x = none := by
  rw [searchInvoke, search_eq_none]
  intro t ht
  cases hm : matchInvoke f t with
  | none => rfl
  | some m =>
    obtain ⟨sp, w, sp', close, hne, hsp, hw, hsp', hclose, hp⟩ := exists_invokeOpening hm
    exact absurd (hp.isInfix.trans ht.isInfix) (h _ (.invokeStart hne hsp hw hsp' hclose))

/-! ### One chunk -/

/-- The buffer is not released. -/
def Holds (x : Text) : Prop := potentiallyDsml x = true ∨ endsWithPrefix x = true

instance (x : Text) : Decidable (Holds x) := inferInstanceAs (Decidable (_ ∨ _))

lemma infix_invokeEndToken : "</｜".toList <:+: f.invokeEndToken :=
  (prefix_append "</｜".toList ("DSML｜".toList ++ f.invokeTagName ++ ['>'])).isInfix

lemma infix_eotToken : "</｜".toList <:+: f.eotToken :=
  (prefix_append "</｜".toList ("DSML｜".toList ++ f.toolCallsBlockName ++ ['>'])).isInfix

/-- What makes the detector keep a text back. -/
lemma potentiallyDsml_iff : potentiallyDsml x = true ↔ ∃ w ∈ dsmlMarkers, w <:+: x := by
  simp [potentiallyDsml]

lemma endsWithPrefix_iff : endsWithPrefix x = true ↔ ∃ w ∈ dsmlPrefixes, w <:+ rstrip x := by
  simp [endsWithPrefix]

lemma potentiallyDsml_of_hasToolCall (h : hasToolCall f x = true) : potentiallyDsml x = true := by
  rw [hasToolCall, decide_eq_true_eq] at h
  refine potentiallyDsml_iff.2 ⟨"<｜".toList, by decide, ?_⟩
  rcases h with h | h
  · refine (isInfix ?_).trans h
    exact prefix_append "<｜".toList ("DSML｜".toList ++ f.toolCallsBlockName ++ ['>'])
  · refine (isInfix ?_).trans h
    exact prefix_append "<｜".toList ("DSML｜".toList ++ f.invokeTagName)

/-- A text without markers is released or kept as a whole. -/
lemma parseStreamingIncrement_eq {c : Text} (h : MarkerFree f (st.buffer ++ c)) :
    parseStreamingIncrement js f st c =
      if Holds (st.buffer ++ c) then ({}, { st with buffer := st.buffer ++ c })
      else ({ normalText := st.buffer ++ c }, { st with buffer := [] }) := by
  rw [parseStreamingIncrement]
  by_cases hh : Holds (st.buffer ++ c)
  · rw [if_pos hh, if_neg, invokeLoop, h.searchInvoke_eq_none]
    rintro ⟨-, hp, he⟩
    exact hh.elim hp he
  · have hpot : ¬ potentiallyDsml (st.buffer ++ c) = true := fun hp => hh (.inl hp)
    have hclose : ¬ "</｜".toList <:+: st.buffer ++ c := fun hin =>
      hpot (potentiallyDsml_iff.2 ⟨_, by decide, hin⟩)
    rw [if_neg hh, if_pos ⟨fun ht => hpot (potentiallyDsml_of_hasToolCall ht), hpot,
      fun he => hh (.inr he)⟩, foldl_cons, foldl_cons, foldl_nil,
      removeAll_eq_self fun hin => hclose (infix_eotToken.trans hin),
      removeAll_eq_self fun hin => hclose (infix_invokeEndToken.trans hin)]

/-! ### A stream -/

/-- What is in the buffer at the end. -/
def held (buffer : Text) : List Text → Text
  | [] => buffer
  | c :: cs => held (if Holds (buffer ++ c) then buffer ++ c else []) cs

variable {cs : List Text}

/-- What is not held back at the end has been released, and there are no calls. -/
lemma parseStream_eq (js : Json V) (st : State) {tools : List Tool} (htools : tools ≠ [])
    (h : MarkerFree f (st.buffer ++ cs.flatten)) :
    ∃ text, FunctionCallParser.parseStream ⟨detector js f, tools⟩ st cs = some (text, []) ∧
      text ++ held st.buffer cs = st.buffer ++ cs.flatten := by
  induction cs generalizing st with
  | nil => exact ⟨[], parseStream_nil _ st, by simp [held]⟩
  | cons c cs ih =>
    rw [flatten_cons, ← append_assoc] at h
    have hinc : parseStreamingIncrement js f st c = _ :=
      parseStreamingIncrement_eq (h.mono (prefix_append _ _).isInfix)
    rw [held, flatten_cons, ← append_assoc]
    by_cases hh : Holds (st.buffer ++ c)
    · rw [if_pos hh] at hinc ⊢
      obtain ⟨text, htext, hall⟩ := ih { st with buffer := st.buffer ++ c } h
      refine ⟨text, ?_, hall⟩
      rw [parseStream_cons _ htools (congrArg some hinc), htext]
      rfl
    · rw [if_neg hh] at hinc ⊢
      obtain ⟨text, htext, hall⟩ := ih { st with buffer := [] }
        (h.mono (suffix_append _ _).isInfix)
      refine ⟨st.buffer ++ c ++ text, ?_, ?_⟩
      · rw [parseStream_cons _ htools (congrArg some hinc), htext]
        rfl
      · rw [append_assoc, hall, nil_append]

/-! ### What is held back -/

variable {w : Text}

lemma isSpace_last_of_dsmlPrefixes (hw : w ∈ dsmlPrefixes) :
    ∃ u c, w = u ++ [c] ∧ isSpace c = false := by
  simp only [dsmlPrefixes, mem_cons, not_mem_nil, or_false] at hw
  rcases hw with rfl | rfl | rfl | rfl
  · exact ⟨[], '<', rfl, rfl⟩
  · exact ⟨['<'], '｜', rfl, rfl⟩
  · exact ⟨['<'], '/', rfl, rfl⟩
  · exact ⟨['<', '/'], '｜', rfl, rfl⟩

/-- A text that ends with the beginning of a tag. -/
lemma endsWithPrefix_of_suffix {u : Text} (hu : u ∈ dsmlPrefixes) (h : u <:+ x) :
    endsWithPrefix x = true := by
  obtain ⟨v, c, rfl, hc⟩ := isSpace_last_of_dsmlPrefixes hu
  refine endsWithPrefix_iff.2 ⟨_, hu, ?_⟩
  rw [rstrip, rdropWhile_eq_self hc h]
  exact h

/-- The beginning of the beginning of a tag is one, too. -/
lemma take_mem_dsmlPrefixes {u v : Text} (hw : w ∈ dsmlPrefixes) (hu : u ≠ []) (hv : v ≠ [])
    (h : w = u ++ v) : u ∈ dsmlPrefixes := by
  have hall : ∀ w ∈ dsmlPrefixes, ∀ i ∈ range w.length, i ≠ 0 → w.take i ∈ dsmlPrefixes := by
    decide
  have hlen : u.length < w.length := by
    have := length_pos_of_ne_nil hv
    rw [h, length_append]
    omega
  have htake : w.take u.length = u := by rw [h, take_left]
  rw [← htake]
  exact hall w hw _ (mem_range.2 hlen) fun h0 => hu (length_eq_zero_iff.1 h0)

variable {a b : Text}

/-- A tag that begins in a text which does not end with the beginning of a tag lies in it. -/
lemma infix_append_of_not_endsWith (hw : w ∈ dsmlPrefixes) (ha : ¬ endsWithPrefix a = true) :
    w <:+: a ++ b ↔ w <:+: a ∨ w <:+: b := by
  rw [infix_append_iff_ne_nil]
  refine ⟨?_, fun h => h.elim .inl fun h => .inr (.inl h)⟩
  rintro (h | h | ⟨u, v, hu, hv, huv, hsuf, -⟩)
  · exact .inl h
  · exact .inr h
  · exact absurd (endsWithPrefix_of_suffix (take_mem_dsmlPrefixes hw hu hv huv) hsuf) ha

/-- Whether a text may end in a marker is decided by its last chunk, unless it did so before. -/
lemma endsWithPrefix_append (ha : ¬ endsWithPrefix a = true) :
    endsWithPrefix (a ++ b) = true ↔ endsWithPrefix b = true := by
  by_cases hb : rstrip b = []
  · have hab : rstrip (a ++ b) = rstrip a := rdropWhile_append_of_eq_nil hb
    have hb' : ¬ endsWithPrefix b = true := by
      grind [endsWithPrefix_iff]
    refine iff_of_false ?_ hb'
    rw [endsWithPrefix_iff, hab, ← endsWithPrefix_iff]
    exact ha
  · have hab : rstrip (a ++ b) = a ++ rstrip b := rdropWhile_append_of_ne_nil hb
    rw [endsWithPrefix_iff, endsWithPrefix_iff, hab]
    constructor
    · rintro ⟨w, hw, hsuf⟩
      rcases suffix_or_suffix_of_suffix hsuf (suffix_append a (rstrip b)) with h | h
      · exact ⟨w, hw, h⟩
      -- otherwise the beginning of the tag's beginning ends the first part
      obtain ⟨u, rfl⟩ := h
      by_cases hu : u = []
      · exact ⟨_, hw, hu ▸ suffix_rfl⟩
      have hua : u <:+ a := by
        obtain ⟨y, hy⟩ := hsuf
        rw [← append_assoc] at hy
        exact ⟨y, append_cancel_right hy⟩
      exact absurd (endsWithPrefix_of_suffix (take_mem_dsmlPrefixes hw hu hb rfl) hua) ha
    · grind

lemma isSpace_of_mem_dsmlToken {c : Char} (h : c ∈ dsmlToken) : isSpace c = false := by
  have hall : dsmlToken.all (fun c => !isSpace c) = true := by decide
  simpa using List.all_eq_true.1 hall c h

lemma dsmlPrefixes_last (hw : w ∈ dsmlPrefixes) :
    (∃ m ∈ dsmlMarkers, m <:+: w) ∨ ∃ d, w.getLast? = some d ∧ d ∉ dsmlToken := by
  simp only [dsmlPrefixes, mem_cons, not_mem_nil, or_false] at hw
  rcases hw with rfl | rfl | rfl | rfl
  · exact .inr ⟨'<', rfl, by decide⟩
  · exact .inl ⟨_, by decide, infix_rfl⟩
  · exact .inr ⟨'/', rfl, by decide⟩
  · exact .inl ⟨"</｜".toList, by decide, infix_rfl⟩

/-- A buffer that waits for a tag has no part of the DSML marker at its end. -/
lemma dsmlToken_infix_append (ha : ¬ potentiallyDsml a = true)
    (hend : a = [] ∨ endsWithPrefix a = true) (h : dsmlToken <:+: a ++ b) : dsmlToken <:+: b := by
  rcases infix_append_iff_ne_nil.1 h with h | h | ⟨u, v, hu, -, huv, hsuf, -⟩
  · exact absurd (potentiallyDsml_iff.2 ⟨_, by decide, h⟩) ha
  · exact h
  · exfalso
    rcases hend with rfl | hend
    · exact hu (suffix_nil.1 hsuf)
    have hlast : ∀ {x} {d}, x.getLast? = some d → x <:+ a → a.getLast? = some d := by
      rintro x d hd ⟨y, rfl⟩
      rw [getLast?_append, hd, some_or]
    obtain ⟨c, hc⟩ : ∃ c, u.getLast? = some c := ⟨_, getLast?_eq_getLast_of_ne_nil hu⟩
    have hcmem : c ∈ dsmlToken := huv ▸ mem_append_left v (mem_of_getLast? hc)
    have hsp : isSpace c = false := isSpace_of_mem_dsmlToken hcmem
    obtain ⟨w, hw, hwa⟩ := endsWithPrefix_iff.1 hend
    have hself : rstrip a = a := by
      obtain ⟨u', rfl⟩ := getLast?_eq_some_iff.1 hc
      exact rdropWhile_eq_self hsp hsuf
    rw [hself] at hwa
    rcases dsmlPrefixes_last hw with ⟨m, hm, hmw⟩ | ⟨d, hd, hdnot⟩
    · exact ha (potentiallyDsml_iff.2 ⟨m, hm, hmw.trans hwa.isInfix⟩)
    · grind

/-! ### When nothing is held back -/

/-- The texts, and their chunks, that are released as a whole: no `<｜` or `</｜` in the text, no
`<` or `</` at its end, and no chunk with the DSML marker. -/
structure Released (text : Text) (cs : List Text) : Prop where
  opening : ¬ "<｜".toList <:+: text
  closing : ¬ "</｜".toList <:+: text
  lastAngle : ¬ "<".toList <:+ rstrip text
  lastSlash : ¬ "</".toList <:+ rstrip text
  chunks : ∀ c ∈ cs, ¬ dsmlToken <:+: c

variable {text : Text}

lemma released_iff :
    Released text cs ↔ ¬ "<｜".toList <:+: text ∧ ¬ "</｜".toList <:+: text ∧
      ¬ endsWithPrefix text = true ∧ ∀ c ∈ cs, ¬ dsmlToken <:+: c := by
  have hstrip : rstrip text <:+: text := ( rdropWhile_prefix _ text).isInfix
  rw [endsWithPrefix_iff]
  constructor
  · rintro ⟨h1, h2, h3, h4, h5⟩
    refine ⟨h1, h2, ?_, h5⟩
    rintro ⟨w, hw, hsuf⟩
    simp only [dsmlPrefixes, mem_cons, not_mem_nil, or_false] at hw
    rcases hw with rfl | rfl | rfl | rfl
    · exact h3 hsuf
    · exact h1 (hsuf.isInfix.trans hstrip)
    · exact h4 hsuf
    · exact h2 (hsuf.isInfix.trans hstrip)
  · rintro ⟨h1, h2, h3, h4⟩
    exact ⟨h1, h2, fun h => h3 ⟨_, by decide, h⟩, fun h => h3 ⟨_, by decide, h⟩, h4⟩

/-- Once a text looks like a call it is held to the end. -/
lemma held_ne_nil_of_potentiallyDsml (h : potentiallyDsml a = true) (cs : List Text) :
    held a cs ≠ [] := by
  induction cs generalizing a with
  | nil =>
    rintro rfl
    exact absurd h (by decide)
  | cons c cs ih =>
    grind [potentiallyDsml, held, Holds]

lemma released_cons {c : Text} (h : ¬ dsmlToken <:+: c) :
    Released text (c :: cs) ↔ Released text cs := by
  rw [released_iff, released_iff, forall_mem_cons, and_iff_right h]

/-- Text that was let go has no part in what is held later. -/
lemma released_append (ha : ¬ Holds a) : Released (a ++ text) cs ↔ Released text cs := by
  have hpot : ¬ potentiallyDsml a = true := fun h => ha (.inl h)
  have hend : ¬ endsWithPrefix a = true := fun h => ha (.inr h)
  have hmark : ∀ w ∈ dsmlMarkers, w ∈ dsmlPrefixes → (w <:+: a ++ text ↔ w <:+: text) := by
    intro w hw hw'
    rw [infix_append_of_not_endsWith hw' hend]
    exact or_iff_right fun hin => hpot (potentiallyDsml_iff.2 ⟨w, hw, hin⟩)
  rw [released_iff, released_iff, hmark _ (by decide) (by decide), hmark _ (by decide) (by decide),
    endsWithPrefix_append hend]

/-- **Nothing is held back in the end exactly if everything is released.** -/
theorem held_eq_nil_iff (ha : ¬ potentiallyDsml a = true)
    (hend : a = [] ∨ endsWithPrefix a = true) (cs : List Text) :
    held a cs = [] ↔ Released (a ++ cs.flatten) cs := by
  induction cs generalizing a with
  | nil =>
    rw [held, flatten_nil, append_nil]
    rcases hend with rfl | hend
    · exact iff_of_true rfl ⟨by decide, by decide, by decide, by decide, nofun⟩
    refine iff_of_false ?_ fun hr => (released_iff.1 hr).2.2.1 hend
    rintro rfl
    exact absurd hend (by decide)
  | cons c cs ih =>
    rw [held, flatten_cons, ← append_assoc]
    by_cases hpot : potentiallyDsml (a ++ c) = true
    · rw [if_pos (show Holds (a ++ c) from .inl hpot)]
      refine iff_of_false (held_ne_nil_of_potentiallyDsml hpot cs) fun hr => ?_
      obtain ⟨w, hw, hin⟩ := potentiallyDsml_iff.1 hpot
      have hin' : w <:+: a ++ c ++ cs.flatten := hin.trans (prefix_append _ _).isInfix
      simp only [dsmlMarkers, mem_cons, not_mem_nil, or_false] at hw
      rcases hw with rfl | rfl | rfl
      · exact hr.chunks c mem_cons_self (dsmlToken_infix_append ha hend hin)
      · exact hr.opening hin'
      · exact hr.closing hin'
    · -- not stuck: either the buffer waits for a tag, or all of it is released
      have hc : ¬ dsmlToken <:+: c := fun hin =>
        hpot (potentiallyDsml_iff.2 ⟨dsmlToken, by decide, hin.trans (suffix_append a c).isInfix⟩)
      rw [released_cons hc]
      by_cases he : endsWithPrefix (a ++ c) = true
      · rw [if_pos (show Holds (a ++ c) from .inr he), ih hpot (.inr he)]
      · have hno : ¬ Holds (a ++ c) := fun h => h.elim hpot he
        rw [if_neg hno, ih (by decide) (.inl rfl), nil_append, released_append hno]

/-- Each marker begins with `<｜` or with `</｜`. -/
lemma IsMarker.angle {t : Text} (h : IsMarker f t) :
    "<｜".toList <:+: t ∨ "</｜".toList <:+: t := by
  cases h with
  | bot =>
    refine .inl (isInfix ?_)
    exact prefix_append "<｜".toList ("DSML｜".toList ++ f.toolCallsBlockName ++ ['>'])
  | eot => exact .inr infix_eotToken
  | invokeStart hne hsp hw hsp' hclose =>
    refine .inl (isInfix ?_)
    simp only [invokeOpening, append_assoc]
    exact (prefix_append "<｜".toList ("DSML｜".toList ++ f.invokeTagName)).trans
      (prefix_append f.invokeStartToken _)
  | invokeEnd => exact .inr infix_invokeEndToken
  | parameterStart hne hsp hw hne₂ hsp₂ hty hsp₃ =>
    refine .inl (isInfix ?_)
    simp only [append_assoc]
    exact (prefix_append "<｜".toList ("DSML｜".toList ++ f.parameterTagName)).trans
      (prefix_append f.parameterStart _)
  | parameterEnd =>
    refine .inr (isInfix ?_)
    exact prefix_append "</｜".toList ("DSML｜".toList ++ f.parameterTagName ++ ['>'])

lemma markerFree_of_not_isInfix (h : ¬ "<｜".toList <:+: x) (h' : ¬ "</｜".toList <:+: x) :
    MarkerFree f x := fun _ ht hin =>
  ht.angle.elim (fun ha => h (ha.trans hin)) fun ha => h' (ha.trans hin)

end Dsml

/-! ## Both detectors -/

/-- **The text of a stream without markers is kept exactly if nothing of it is held back in the
end.** -/
theorem plain_text_kept_iff {V W : Type} (js : Dsml.Json V) (py : Qwen.Builtins W)
    (f : Dsml.Format) {tools : List Tool} (htools : tools ≠ []) (cs : List Text) :
    (Dsml.MarkerFree f cs.flatten →
      (FunctionCallParser.parseStream ⟨detector js f, tools⟩ {} cs = some (cs.flatten, []) ↔
        Dsml.Released cs.flatten cs)) ∧
    (Qwen.MarkerFree cs.flatten →
      (FunctionCallParser.parseStream ⟨detector py, tools⟩ {} cs = some (cs.flatten, []) ↔
        ¬ Qwen.EndsInMarker cs.flatten)) := by
  constructor
  · intro h
    obtain ⟨text, htext, hall⟩  := parseStream_eq js {} htools h
    change text ++ held [] cs = cs.flatten at hall
    have hheld := held_eq_nil_iff (a := []) (by decide) (.inl rfl) cs
    rw [nil_append] at hheld
    rw [htext, ← hheld, Option.some.injEq, Prod.mk.injEq, and_iff_left rfl, ← hall]
    exact self_eq_append_right
  · intro h
    obtain ⟨a, r, hsplit, hscan, hr⟩ := scan_markerFree h
    rw [parseStream_eq htools, hscan, ← hr, map_some, Option.some.injEq,
      Prod.mk.injEq, normalText_plain rfl, callsOf_plain, and_iff_left rfl, hsplit]
    exact self_eq_append_right

/-- A tool and the functions that read no value, for streams without calls. -/
def sampleTools : List Tool := [⟨"f".toList, []⟩]

lemma sampleTools_ne_nil : sampleTools ≠ [] := cons_ne_nil _ _

def noJson : Dsml.Json Unit := ⟨fun _ => none, fun _ => none, fun _ => []⟩

def noBuiltins : Qwen.Builtins Unit where
  lower := id
  null := ()
  str _ := ()
  bool _ := ()
  int _ := none
  float _ := none
  isInteger _ := false
  truncate := id
  jsonLoads _ := none
  literalEval _ := none
  dumps _ := none

/-- A comparison and a split DSML marker are kept. -/
theorem plain_text_kept :
    FunctionCallParser.parseStream ⟨detector noJson deepSeekV41, sampleTools⟩ {}
        ["a<".toList, "b ｜DS".toList, "ML｜".toList] = some ("a<b ｜DSML｜".toList, []) ∧
      FunctionCallParser.parseStream ⟨detector noBuiltins, sampleTools⟩ {}
        ["a<".toList, "b ｜DS".toList, "ML｜".toList] = some ("a<b ｜DSML｜".toList, []) := by
  have h := plain_text_kept_iff noJson noBuiltins deepSeekV41 sampleTools_ne_nil
    ["a<".toList, "b ｜DS".toList, "ML｜".toList]
  refine ⟨(h.1 (markerFree_of_not_isInfix (by decide) (by decide))).2
    ⟨by decide, by decide, by decide, by decide, by decide⟩, (h.2 (by decide)).2 (by decide)⟩

/-- A text that ends with `<` is not kept: one detector loses all of it, the other one the `<`. -/
theorem last_angle_lost :
    Dsml.MarkerFree deepSeekV32 "a<".toList ∧ Qwen.MarkerFree "a<".toList ∧
      FunctionCallParser.parseStream ⟨detector noJson deepSeekV32, sampleTools⟩ {}
        ["a<".toList] = some ([], []) ∧
      FunctionCallParser.parseStream ⟨detector noBuiltins, sampleTools⟩ {}
        ["a<".toList] = some (['a'], []) := by
  refine ⟨markerFree_of_not_isInfix (by decide) (by decide), by decide, ?_, ?_⟩
  · decide +kernel
  · decide +kernel

end Sglang.Tools
