import Sglang.Tools.Qwen

/-!
# The Qwen3-Coder machine does not depend on the chunks

A marker begins with `<` and has no further `<`, so that a marker which is there is not part of
another one (`tag_eq_of_isPrefix_append`), and the first end of a parameter's value stays the first
one when more text arrives (`bestCand_append`).  Hence what the machine does on a text it also does
when more text follows, `scanner_stable`, and `feedAll_eq` of the scanners applies.
-/

namespace Sglang.Tools.Qwen
open Lib List Option

variable {V : Type} {py : Builtins V} {tools : List Tool} {st : State}

/-! ## Markers -/

variable {t : Text}

lemma tag_head (ht : t ∈ possibleTags) : t.head? = some '<' := by
  revert t
  decide

lemma tag_tail (ht : t ∈ possibleTags) : '<' ∉ t.tail := by
  revert t
  decide

variable {t' : Text}

lemma tag_eq_of_isPrefix (ht : t ∈ possibleTags) (ht' : t' ∈ possibleTags) (h : t <+: t') :
    t = t' := by
  have hall : ∀ t ∈ possibleTags, ∀ t' ∈ possibleTags, t <+: t' → t = t' := by decide
  exact hall t ht t' ht' h

variable {r : Text}

/-- A text begins with at most one marker. -/
lemma tag_eq_of_isPrefix_append (ht : t ∈ possibleTags) (ht' : t' ∈ possibleTags)
    (h : t <+: t' ++ r) : t = t' := by
  rcases prefix_or_prefix_of_prefix h (prefix_append t' r) with h' | h'
  · exact tag_eq_of_isPrefix ht ht' h'
  · exact (tag_eq_of_isPrefix ht' ht h').symm

lemma tag_ne_nil (ht : t ∈ possibleTags) : t ≠ [] := by
  rintro rfl
  cases tag_head ht

lemma tag_append_ne_nil (ht : t ∈ possibleTags) (r : Text) : t ++ r ≠ [] :=
  append_ne_nil_of_left_ne_nil (tag_ne_nil ht) r

variable {s : Text} {i : ℕ}

/-- Markers do not overlap. -/
lemma tag_no_overlap {j : ℕ} (ht : t ∈ possibleTags) (ht' : t' ∈ possibleTags)
    (h : OccursAt t s i) (h' : OccursAt t' s j) (hij : i < j) : i + t.length ≤ j :=
  h.no_overlap (tag_tail ht) (tag_head ht') h' hij

/-- At one place there is one marker at most. -/
lemma tag_eq_of_occursAt (ht : t ∈ possibleTags) (ht' : t' ∈ possibleTags) (h : OccursAt t s i)
    (h' : OccursAt t' s i) : t = t' := by
  obtain ⟨r, hr⟩ := h'.2
  exact tag_eq_of_isPrefix_append ht ht' (hr ▸ h.2)

/-! ### Markers in a text that is put together -/

variable {x : Text}

section
variable (ht : t ∈ possibleTags)

include ht

lemma mem_of_tag_isInfix (h : t <:+: x) : '<' ∈ x :=
  h.subset (mem_of_head? (tag_head ht))

/-- No marker reaches over a `<`. -/
lemma tag_infix_append_angle {a b : Text} (hb : b.head? = some '<') :
    t <:+: a ++ b ↔ t <:+: a ∨ t <:+: b := by
  rw [infix_append_iff_ne_nil]
  refine ⟨?_, fun h => h.elim .inl fun h => .inr (.inl h)⟩
  rintro (h | h | ⟨u, v, hu, hv, rfl, -, y, rfl⟩)
  · exact .inl h
  · exact .inr h
  · rw [head?_append_of_ne_nil _ hv] at hb
    refine absurd (mem_of_head? hb) fun hmem => tag_tail ht ?_
    rw [tail_append_of_ne_nil hu]
    exact mem_append_right _ hmem

lemma tag_infix_append_plain (hx : '<' ∉ x) :
    t <:+: x ++ r ↔ t <:+: r := by
  rw [infix_append_iff_ne_nil]
  refine ⟨?_, fun h => .inr (.inl h)⟩
  rintro (h | h | ⟨u, v, hu, -, rfl, hsuf, -⟩)
  · exact absurd (mem_of_tag_isInfix ht h) hx
  · exact h
  · have hhead := tag_head ht
    rw [head?_append_of_ne_nil _ hu] at hhead
    exact absurd (hsuf.subset (mem_of_head? hhead)) hx

/-- A marker in a text that begins with a marker is that one or comes after it. -/
lemma tag_infix_tag_append (ht' : t' ∈ possibleTags) : t <:+: t' ++ r ↔ t = t' ∨ t <:+: r := by
  constructor
  · intro h
    obtain ⟨i, hi⟩ := infix_iff_occursAt.1 h
    rcases Nat.eq_zero_or_pos i with rfl | hpos
    · exact .inl (tag_eq_of_isPrefix_append ht ht' (occursAt_zero.1 hi))
    have h0 : OccursAt t' (t' ++ r) 0 := occursAt_zero.2 (prefix_append _ _)
    have hle := tag_no_overlap ht' ht h0 hi hpos
    obtain ⟨j, rfl⟩ := Nat.exists_eq_add_of_le hle
    rw [Nat.zero_add, occursAt_append_left] at hi
    exact .inr (infix_iff_occursAt.2 ⟨j, hi⟩)
  · rintro (rfl | h)
    · exact (prefix_append _ _).isInfix
    · exact h.trans (suffix_append _ _).isInfix

/-- The first marker after a text without it. -/
lemma find_tag {a : Text} (ha : ¬ t <:+: a) (r : Text) : find t (a ++ (t ++ r)) = some a.length :=
  find_append_word (tag_head ht) (tag_tail ht) ha r

end

/-! ## The end of a parameter -/

/-- The markers that end a value. -/
def endTags : List Text := [parameterEndToken, parameterPrefix, functionEndToken]

lemma endTags_subset (h : t ∈ endTags) : t ∈ possibleTags := by
  revert t
  decide

/-- How much of a marker that ends a value is consumed with the value. -/
def consumedLen (t : Text) : ℕ := if t = parameterEndToken then parameterEndToken.length else 0

variable {a b : Option (ℕ × ℕ)}

lemma earlier_mem {x : ℕ × ℕ} (h : earlier a b = some x) : a = some x ∨ b = some x := by
  rcases a with _ | a <;> rcases b with _ | b <;> rw [earlier] at h
  · exact .inl h
  · exact .inr h
  · exact .inl h
  · grind

variable {y : ℕ × ℕ}

lemma earlier_le_left (h : a = some y) : ∃ x, earlier a b = some x ∧ x.1 ≤ y.1 := by
  subst h
  rcases b with _ | b <;> rw [earlier]
  · exact ⟨y, rfl, le_rfl⟩
  · grind

lemma earlier_le_right (h : b = some y) : ∃ x, earlier a b = some x ∧ x.1 ≤ y.1 := by
  subst h
  rcases a with _ | a <;> rw [earlier]
  · exact ⟨y, rfl, le_rfl⟩
  · grind

lemma earlier_earlier_le {c : Option (ℕ × ℕ)} (h : a = some y ∨ b = some y ∨ c = some y) :
    ∃ x, earlier (earlier a b) c = some x ∧ x.1 ≤ y.1 := by
  have hleft : (∃ x, earlier a b = some x ∧ x.1 ≤ y.1) →
      ∃ x, earlier (earlier a b) c = some x ∧ x.1 ≤ y.1 := by
    rintro ⟨x, hx, hle⟩
    obtain ⟨z, hz, hle'⟩ := earlier_le_left (b := c) hx
    exact ⟨z, hz, hle'.trans hle⟩
  rcases h with h | h | h
  · exact hleft (earlier_le_left h)
  · exact hleft (earlier_le_right h)
  · exact earlier_le_right h

variable {rest : Text}

/-- The end of a value is where one of the three end markers is. -/
lemma bestCand_mem {x : ℕ × ℕ} (h : bestCand rest = some x) :
    ∃ t ∈ endTags, OccursAt t rest x.1 ∧ x.2 = consumedLen t := by
  have hmap : ∀ t ∈ endTags, (find t rest).map (fun i => (i, consumedLen t)) = some x →
      ∃ t ∈ endTags, OccursAt t rest x.1 ∧ x.2 = consumedLen t := by
    intro t ht hx
    obtain ⟨i, hi, rfl⟩ := map_eq_some_iff.1 hx
    exact ⟨t, ht, (find_eq_some.1 hi).1, rfl⟩
  rcases earlier_mem h with h' | h'
  · rcases earlier_mem h' with h'' | h''
    · exact hmap parameterEndToken (by decide) h''
    · exact hmap parameterPrefix (by decide) h''
  · exact hmap functionEndToken (by decide) h'

lemma bestCand_le {q : ℕ} (ht : t ∈ endTags) (h : OccursAt t rest q) :
    ∃ x, bestCand rest = some x ∧ x.1 ≤ q := by
  obtain ⟨k, hk, hfind⟩ := h.exists_find
  have hcand : (find t rest).map (fun i => (i, consumedLen t)) = some (k, consumedLen t) := by
    rw [hfind, map_some]
  simp only [endTags, mem_cons, not_mem_nil, or_false] at ht
  obtain ⟨x, hx, hle⟩ : ∃ x, bestCand rest = some x ∧ x.1 ≤ k := by
    rcases ht with rfl | rfl | rfl
    · exact earlier_earlier_le (.inl hcand)
    · exact earlier_earlier_le (.inr (.inl hcand))
    · exact earlier_earlier_le (.inr (.inr hcand))
  exact ⟨x, hx, hle.trans hk⟩

variable {p l : ℕ}

/-- A value ends at the first of the markers that end it. -/
lemma bestCand_eq_some :
    bestCand rest = some (p, l) ↔ (∃ t ∈ endTags, OccursAt t rest p ∧ l = consumedLen t) ∧
        ∀ t ∈ endTags, ∀ q < p, ¬ OccursAt t rest q := by
  constructor
  · intro h
    refine ⟨bestCand_mem h, fun t ht q hq hat => ?_⟩
    obtain ⟨x, hx, hle⟩ := bestCand_le ht hat
    rw [h, Option.some.injEq] at hx
    subst hx
    omega
  · rintro ⟨⟨t, ht, hat, rfl⟩, hfirst⟩
    obtain ⟨x, hx, hle⟩ := bestCand_le ht hat
    obtain ⟨t', ht', hat', hl⟩ := bestCand_mem hx
    obtain hp : x.1 = p := le_antisymm hle (not_lt.1 fun hlt => hfirst t' ht' _ hlt hat')
    rw [hp] at hat'
    obtain rfl := tag_eq_of_occursAt (endTags_subset ht) (endTags_subset ht') hat hat'
    rw [hx, ← hp, ← hl]

/-- The first end of a value stays the first one when more text arrives. -/
lemma bestCand_append (h : bestCand rest = some (p, l)) (y : Text) :
    bestCand (rest ++ y) = some (p, l) := by
  obtain ⟨⟨t, ht, hat, hl⟩, hfirst⟩ := bestCand_eq_some.1 h
  refine bestCand_eq_some.2 ⟨⟨t, ht, hat.append y, hl⟩, fun t' ht' q hq hat' => ?_⟩
  have hend := tag_no_overlap (endTags_subset ht') (endTags_subset ht) hat' (hat.append y) hq
  have := hat.1
  exact hfirst t' ht' q hq (hat'.of_append (by omega))

/-- The value of a closed parameter. -/
lemma bestCand_closed {value : Text} (h : ∀ t ∈ endTags, ¬ t <:+: value) (r : Text) :
    bestCand (value ++ (parameterEndToken ++ r)) =
      some (value.length, parameterEndToken.length) := by
  have hat : OccursAt parameterEndToken (value ++ (parameterEndToken ++ r)) value.length :=
    occursAt_iff.2 ⟨value, r, (append_assoc _ _ _).symm, rfl⟩
  refine bestCand_eq_some.2 ⟨⟨parameterEndToken, by decide, hat, rfl⟩, fun t ht q hq hat' => ?_⟩
  have hle := tag_no_overlap (endTags_subset ht) (by decide) hat' hat hq
  exact h t ht (infix_iff_occursAt.2 ⟨q, hat'.of_append hle⟩)

lemma bestCand_le_length (h : bestCand rest = some (p, l)) : p + l ≤ rest.length := by
  obtain ⟨t, ht, hat, hl⟩ := bestCand_mem h
  have := hat.1
  dsimp only at this hl
  rw [consumedLen] at hl
  split_ifs at hl with heq
  · rw [hl, ← heq]
    exact this
  · omega

/-! ## The moves -/

lemma if_other_tag {α : Type} {x y : α} (r : Text) (ht' : t' ∈ possibleTags)
    (ht : t ∈ possibleTags) (hne : t ≠ t') : (if t <+: t' ++ r then x else y) = y :=
  if_neg fun h => hne (tag_eq_of_isPrefix_append ht ht' h)

lemma move_nil : move py tools st [] = .wait := by
  rw [move, if_pos rfl]

lemma move_toolCallStart (r : Text) :
    move py tools st (toolCallStartToken ++ r) = .go { st with isInsideToolCall := true } r [] := by
  rw [move, if_neg (tag_append_ne_nil (by decide) _), if_pos (prefix_append _ _), drop_left]

lemma move_function (body : Text) :
    move py tools st (toolCallPrefix ++ body) = moveFunction st body := by
  have ht : toolCallPrefix ∈ possibleTags := by decide
  rw [move, if_neg (tag_append_ne_nil ht _), if_other_tag body ht (by decide) (by decide),
    if_pos (prefix_append _ _), drop_left]

lemma move_parameter (body : Text) :
    move py tools st (parameterPrefix ++ body) = moveParameter py tools st body := by
  have ht : parameterPrefix ∈ possibleTags := by decide
  rw [move, if_neg (tag_append_ne_nil ht _), if_other_tag body ht (by decide) (by decide),
    if_other_tag body ht (by decide) (by decide), if_pos (prefix_append _ _), drop_left]

lemma move_functionEnd (r : Text) :
    move py tools st (functionEndToken ++ r) = moveFunctionEnd st r := by
  have ht : functionEndToken ∈ possibleTags := by decide
  rw [move, if_neg (tag_append_ne_nil ht _), if_other_tag r ht (by decide) (by decide),
    if_other_tag r ht (by decide) (by decide), if_other_tag r ht (by decide) (by decide),
    if_pos (prefix_append _ _), drop_left]

lemma move_toolCallEnd (r : Text) :
    move py tools st (toolCallEndToken ++ r) = .go { st with isInsideToolCall := false } r [] := by
  have ht : toolCallEndToken ∈ possibleTags := by decide
  rw [move, if_neg (tag_append_ne_nil ht _), if_other_tag r ht (by decide) (by decide),
    if_other_tag r ht (by decide) (by decide), if_other_tag r ht (by decide) (by decide),
    if_other_tag r ht (by decide) (by decide), if_pos (prefix_append _ _), drop_left]

/-- The markers that the machine acts on. -/
def actionTags : List Text :=
  [toolCallStartToken, toolCallPrefix, parameterPrefix, functionEndToken, toolCallEndToken]

lemma move_text (hs : s ≠ []) (h : ∀ t ∈ actionTags, ¬ t <+: s) :
    move py tools st s = moveText st s := by
  rw [move, if_neg hs, if_neg (h _ (by decide)), if_neg (h _ (by decide)),
    if_neg (h _ (by decide)), if_neg (h _ (by decide)), if_neg (h _ (by decide))]

lemma actionTags_subset (h : t ∈ actionTags) : t ∈ possibleTags := by
  revert t
  decide

/-! ## Text -/

variable {c : Char} {z : Text}

lemma head_of_isPrefix (ht : t ∈ possibleTags) (h : t <+: c :: z) : c = '<' := by
  obtain ⟨r, hr⟩ := h
  have hhead := tag_head ht
  cases t with
  | nil => cases hhead
  | cons a t =>
    grind

lemma move_cons (hc : c ≠ '<') (z : Text) :
    move py tools st (c :: z) =
      .go st (z.dropWhile (· ≠ '<')) (st.plain (c :: z.takeWhile (· ≠ '<'))) := by
  have hp : decide (c ≠ '<') = true := decide_eq_true hc
  rw [move_text (cons_ne_nil _ _)
    fun t ht h => hc (head_of_isPrefix (actionTags_subset ht) h), moveText,
    takeWhile_cons_of_pos (p := fun x => decide (x ≠ '<')) hp,
    dropWhile_cons_of_pos (p := fun x => decide (x ≠ '<')) hp, if_pos (cons_ne_nil _ _)]

/-- At a `<` that begins no marker yet the machine waits if it may still begin one. -/
lemma move_angle (h : ∀ t ∈ actionTags, ¬ t <+: '<' :: z) :
    move py tools st ('<' :: z) =
      if ∃ t ∈ possibleTags, '<' :: z <+: t then .wait else .go st z (st.plain ['<']) := by
  simp_all [move_text, moveText]

lemma plain_append (a b : Text) : st.plain (a ++ b) = st.plain a ++ st.plain b := by
  grind [State.plain]

lemma plain_nil : st.plain [] = [] := by
  rw [State.plain]
  split <;> rfl

/-- Text without `<` is emitted. -/
lemma scan_plain (hx : '<' ∉ x) (z : Text) :
    (scanner py tools).scan st (x ++ z) =
      ((scanner py tools).scan st z).map (.after (st.plain x)) := by
  have hseg : ∀ c w, c ≠ '<' → (scanner py tools).scan st (c :: w) =
      ((scanner py tools).scan st (w.dropWhile (· ≠ '<'))).map
        (.after (st.plain (c :: w.takeWhile (· ≠ '<')))) :=
    fun c w hc => Scanner.scan_go _ (move_cons hc w)
  have htake : ∀ w, (scanner py tools).scan st w =
      ((scanner py tools).scan st (w.dropWhile (· ≠ '<'))).map
        (.after (st.plain (w.takeWhile (· ≠ '<')))) := by
    intro w
    cases w with
    | nil =>
      rw [dropWhile_nil, takeWhile_nil, plain_nil]
      exact Option.map_id'.symm
    | cons c w =>
      by_cases hc : c = '<'
      · rw [dropWhile_cons_of_neg (by simpa using hc),
          takeWhile_cons_of_neg (by simpa using hc), plain_nil]
        exact Option.map_id'.symm
      · grind [dropWhile_cons_of_pos, takeWhile_cons_of_pos]
  have hall : ∀ c ∈ x, decide (c ≠ '<') = true := fun c hc =>
    decide_eq_true fun h => hx (h ▸ hc)
  rw [htake (x ++ z), htake z, dropWhile_append_of_pos hall, takeWhile_append_of_pos hall,
    plain_append, Option.map_map]
  refine congrArg (fun f => Option.map f _) ?_
  funext o
  exact (Scanner.after_after _ _ _).symm

lemma scan_of_move {st' : State} {ev : List Event} (h : move py tools st s = .go st' r ev) :
    (scanner py tools).scan st s = ((scanner py tools).scan st' r).map (.after ev) :=
  Scanner.scan_go _ h

lemma scan_toolCallStart (r : Text) :
    (scanner py tools).scan st (toolCallStartToken ++ r) =
      (scanner py tools).scan { st with isInsideToolCall := true } r := by
  rw [scan_of_move (move_toolCallStart r)]
  exact Option.map_id'

lemma scan_toolCallEnd (r : Text) :
    (scanner py tools).scan st (toolCallEndToken ++ r) =
      (scanner py tools).scan { st with isInsideToolCall := false } r := by
  rw [scan_of_move (move_toolCallEnd r)]
  exact Option.map_id'

/-! ## Stability -/

variable {body : Text}

/-- A move that is not a wait is not changed by more text. -/
lemma moveFunction_append (h : moveFunction st body ≠ .wait) (y : Text) :
    moveFunction st (body ++ y) = (moveFunction st body).extend y := by
  cases hfind : find ['>'] body with
  | none => exact absurd (by rw [moveFunction, hfind]) h
  | some i =>
    have hlen := (find_eq_some.1 hfind).1.1
    rw [length_singleton] at hlen
    rw [moveFunction, moveFunction, hfind, find_append hfind]
    dsimp only [ScanMove.extend]
    rw [take_append_of_le_length (by omega), drop_append_of_le_length hlen]

lemma moveParameter_append (h : moveParameter py tools st body ≠ .wait) (y : Text) :
    moveParameter py tools st (body ++ y) = (moveParameter py tools st body).extend y := by
  cases hfind : find ['>'] body with
  | none => exact absurd (by rw [moveParameter, hfind]) h
  | some i =>
    have hlen := (find_eq_some.1 hfind).1.1
    rw [length_singleton] at hlen
    cases hcand : bestCand (body.drop (i + 1)) with
    | none => exact absurd (by rw [moveParameter, hfind]; dsimp only; rw [hcand]) h
    | some x =>
      obtain ⟨p, l⟩ := x
      have hpl := bestCand_le_length hcand
      rw [moveParameter, moveParameter, hfind, find_append hfind]
      dsimp only
      rw [take_append_of_le_length (by omega), drop_append_of_le_length hlen,
        bestCand_append hcand, hcand]
      dsimp only
      rw [take_append_of_le_length (by omega), drop_append_of_le_length hpl]
      split <;> rfl

/-- At `<` the machine does the same when more text follows, if it does not wait. -/
lemma move_append (hs : s.head? = some '<') (h : move py tools st s ≠ .wait) (y : Text) :
    move py tools st (s ++ y) = (move py tools st s).extend y := by
  by_cases hact : ∃ t ∈ actionTags, t <+: s
  · obtain ⟨t, ht, r, rfl⟩ := hact
    rw [append_assoc]
    simp only [actionTags, mem_cons, not_mem_nil, or_false] at ht
    rcases ht with rfl | rfl | rfl | rfl | rfl
    · rw [move_toolCallStart, move_toolCallStart]
      rfl
    · rw [move_function] at h ⊢
      rw [move_function, moveFunction_append h]
    · rw [move_parameter] at h ⊢
      rw [move_parameter, moveParameter_append h]
    · rw [move_functionEnd, move_functionEnd]
      rfl
    · rw [move_toolCallEnd, move_toolCallEnd]
      rfl
  · cases s with
    | nil => cases hs
    | cons c z =>
      obtain rfl : c = '<' := Option.some.inj hs
      have hno : ∀ t ∈ actionTags, ¬ t <+: '<' :: z := fun t ht hp => hact ⟨t, ht, hp⟩
      rw [move_angle hno] at h ⊢
      have hpot : ¬ ∃ t ∈ possibleTags, '<' :: z <+: t := fun hpot => h (if_pos hpot)
      -- what is neither a marker nor the beginning of one is neither with more text
      have hno' : ∀ t ∈ actionTags, ¬ t <+: '<' :: (z ++ y) := by
        intro t ht hp
        rcases prefix_or_prefix_of_prefix hp (prefix_append ('<' :: z) y) with h' | h'
        · exact hno t ht h'
        · exact hpot ⟨t, actionTags_subset ht, h'⟩
      have hpot' : ¬ ∃ t ∈ possibleTags, '<' :: (z ++ y) <+: t := by
        rintro ⟨t, ht, hp⟩
        exact hpot ⟨t, ht, (prefix_append ('<' :: z) y).trans hp⟩
      rw [cons_append, move_angle hno', if_neg hpot, if_neg hpot']
      rfl

/-- The machine does on a text what it does when more text follows. -/
lemma scanner_stable : (scanner py tools).Stable where
  fail := by
    intro st s h y
    change move py tools st s = .fail at h
    cases s with
    | nil => rw [move_nil] at h; cases h
    | cons c z =>
      by_cases hc : c = '<'
      · subst hc
        have hne : move py tools st ('<' :: z) ≠ .wait := by rw [h]; nofun
        have hmove := move_append rfl hne y
        exact Scanner.scan_fail _ (hmove.trans (congrArg (ScanMove.extend y) h))
      · simp_all [move_cons hc]
  go := by
    intro st s st' r ev h y
    change move py tools st s = .go st' r ev at h
    cases s with
    | nil => rw [move_nil] at h; cases h
    | cons c z =>
      by_cases hc : c = '<'
      · subst hc
        have hne : move py tools st ('<' :: z) ≠ .wait := by rw [h]; nofun
        have hmove := move_append rfl hne y
        exact Scanner.scan_go _ (hmove.trans (congrArg (ScanMove.extend y) h))
      · grind [move_cons, mem_takeWhile_imp, takeWhile_append_dropWhile, scan_plain]

lemma scan_nil : (scanner py tools).scan st [] = some ⟨[], st, []⟩ :=
  Scanner.scan_wait _ (show move py tools st [] = .wait from move_nil)

/-- The chunks of a text give what the text gives at once. -/
lemma feedAll_eq_scan (cs : List Text) :
    (scanner py tools).feedAll st [] cs = (scanner py tools).scan st cs.flatten := by
  refine scanner_stable.feedAll_eq ?_ cs
  exact show move py tools st [] = .wait from move_nil

end Sglang.Tools.Qwen
