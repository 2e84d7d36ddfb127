import Sglang.Output.Detokenizer

/-!
# What the detokenizer sends

The tokens of a request arrive in messages.  `emitted` is the text that the messages before the
last give and `released` how much of the whole text that is meant to be, both read off the tokens
since the last clean point.  A message whose text is not clean may send less than the one before it:
the text before the last character counts as printable when that character is preceded by a Chinese
one, and later only the text up to the last space does (`Retreats`).  Then `sentOffset` moves back,
and what lies between is sent twice.  If this never happens (`Steady`) the pieces are the beginning
of the text (`emitted_eq`); if it does they are too long (`released_lt`).
-/

namespace Sglang.Output
open Lib Detokenizer List

/-! ## Printable beginnings -/

section
variable {T T' : Text} {n : ℕ}

lemma not_clean_iff : ¬ Clean T ↔ T = [] ∨ T.getLast? = some Utf8.replacement := by
  rw [Clean, not_and_or, not_not, not_not]

lemma upToLastSpace_prefix (T : Text) : upToLastSpace T <+: T := rdropWhile_prefix _ T

lemma upToLastSpace_concat {c : Char} (hc : c ≠ ' ') :
    upToLastSpace (T ++ [c]) = upToLastSpace T := by
  rw [upToLastSpace, rdropWhile_concat_pos _ _ _ (by simpa using hc)]
  rfl

/-- Where the last space is. -/
lemma length_upToLastSpace_le_iff : (upToLastSpace T).length ≤ n ↔ ' ' ∉ T.drop n := by
  induction T using reverseRecOn with
  | nil => simp [upToLastSpace]
  | append_singleton T c ih =>
    by_cases hc : c = ' '
    · subst hc
      rw [upToLastSpace, rdropWhile_concat_neg _ _ _ (by simp), drop_append]
      simp only [length_append, length_singleton, mem_append, not_or]
      constructor
      · grind [drop_eq_nil_of_le]
      · rintro ⟨-, h⟩
        by_contra hn
        rw [show n - T.length = 0 by omega] at h
        simp at h
    · grind [upToLastSpace_concat, drop_append]

lemma upToLastSpace_getLast (h : upToLastSpace T ≠ []) :
    (upToLastSpace T).getLast? = some ' ' := by
  have hlast := rdropWhile_last_not (fun c => decide (c ≠ ' ')) T h
  rw [decide_eq_true_eq, not_not] at hlast
  rw [getLast?_eq_some_getLast h, Option.some_inj]
  exact hlast

/-- What is printable of a text that ends in U+FFFD. -/
lemma findPrintableText_of_last (h : T.getLast? = some Utf8.replacement) :
    findPrintableText T =
      if T.dropLast.getLast?.any isChineseChar then T.dropLast else upToLastSpace T := by
  rw [findPrintableText, h, if_neg (by decide), if_neg (by decide)]

lemma upToLastSpace_prefix_dropLast (h : T.getLast? = some Utf8.replacement) :
    upToLastSpace T <+: T.dropLast := by
  obtain ⟨T, rfl⟩ := getLast?_eq_some_iff.1 h
  rw [upToLastSpace_concat (by decide), dropLast_concat]
  exact upToLastSpace_prefix T

/-- What counts as printable never includes the incomplete character. -/
lemma findPrintableText_isPrefix (h : ¬ Clean T) : findPrintableText T <+: T.dropLast := by
  rcases not_clean_iff.1 h with rfl | h
  · exact nil_prefix
  · grind [findPrintableText_of_last, upToLastSpace_prefix_dropLast]

/-- The text before the last character was printable, and now no text that long is. -/
def Retreats (T T' : Text) : Prop :=
  T.dropLast.getLast?.any isChineseChar = true ∧ ¬ T'.dropLast.getLast?.any isChineseChar = true ∧
    ' ' ∉ T'.drop (T.length - 1)

instance : Decidable (Retreats T T') := inferInstanceAs (Decidable (_ ∧ _ ∧ _))

/-- A printable beginning that stays is shorter than the undecided text it stays in. -/
lemma length_le_dropLast {p : Text} (hp : p <+: T') (hne : p.getLast? ≠ T'.getLast?) :
    p.length ≤ T'.dropLast.length := by
  grind [hp.eq_of_length]

/-- **The printable text gets shorter exactly in this case.** -/
theorem retreats_iff (hT : ¬ Clean T) (hT' : ¬ Clean T') (hpre : T.dropLast <+: T') :
    Retreats T T' ↔ (findPrintableText T').length < (findPrintableText T).length := by
  rcases not_clean_iff.1 hT with rfl | hl
  · exact iff_of_false (fun h => by cases h.1) (Nat.not_lt_zero _)
  have hlen : T.dropLast.length = T.length - 1 := length_dropLast
  by_cases hc : T.dropLast.getLast?.any isChineseChar = true
  · obtain ⟨c, hlast, hcc⟩ := (Option.any_eq_true _ _).1 hc
    obtain ⟨u, hu⟩ := getLast?_eq_some_iff.1 hlast
    have hspace : c ≠ ' ' := by
      rintro rfl
      exact absurd hcc (by decide)
    have hrep : c ≠ Utf8.replacement := by
      rintro rfl
      exact absurd hcc (by decide)
    have hl' : T'.getLast? = some Utf8.replacement := by
      refine (not_clean_iff.1 hT').resolve_left fun h => ?_
      rw [h, hu] at hpre
      simp at hpre
    have hle : T.dropLast.length ≤ T'.dropLast.length :=
      length_le_dropLast hpre (by rw [hlast, hl']; exact fun h => hrep (Option.some_inj.1 h))
    rw [findPrintableText_of_last hl, if_pos hc, findPrintableText_of_last hl']
    by_cases hc' : T'.dropLast.getLast?.any isChineseChar = true
    · rw [if_pos hc']
      exact iff_of_false (fun h => h.2.1 hc') (by omega)
    · rw [if_neg hc', hu, length_append, length_singleton, Nat.lt_succ_iff,
        length_upToLastSpace_le_iff]
      have hdrop : T'.drop u.length = c :: T'.drop (T.length - 1) := by
        obtain ⟨v, rfl⟩ := hpre
        rw [← hlen, hu, append_assoc, drop_left, singleton_append,
          length_append, length_singleton, ← drop_drop, drop_left, drop_one, tail_cons]
      rw [hdrop, mem_cons, not_or]
      exact ⟨fun h => ⟨hspace.symm, h.2.2⟩, fun h => ⟨hc, hc', h.2⟩⟩
  · refine iff_of_false (fun h => hc h.1) (not_lt.2 ?_)
    rw [findPrintableText_of_last hl, if_neg hc]
    have hp : upToLastSpace T <+: T' := (upToLastSpace_prefix_dropLast hl).trans hpre
    by_cases hnil : upToLastSpace T = []
    · rw [hnil]
      exact Nat.zero_le _
    · have hsp := upToLastSpace_getLast hnil
      have hl' : T'.getLast? = some Utf8.replacement := by
        refine (not_clean_iff.1 hT').resolve_left fun h => hnil ?_
        rw [h] at hp
        exact prefix_nil.1 hp
      rw [findPrintableText_of_last hl']
      split
      · exact length_le_dropLast hp (by rw [hsp, hl']; decide)
      -- the space that ends the old beginning is still there
      by_contra hlt
      obtain ⟨u, hu⟩ := getLast?_eq_some_iff.1 hsp
      rw [hu, not_le, length_append, length_singleton, Nat.lt_succ_iff,
        length_upToLastSpace_le_iff] at hlt
      obtain ⟨v, rfl⟩ := hp
      rw [hu, append_assoc, drop_left] at hlt
      simp at hlt

end

/-! ## The pieces -/

/-- What incremental decoding asks of a decoder: it may be cut at a clean point, and all but the
last character of a text stays when tokens are added. -/
structure Incremental (dec : List ℤ → Text) : Prop where
  nil : dec [] = []
  append : ∀ x, Clean (dec x) → ∀ y, dec (x ++ y) = dec x ++ dec y
  stable : ∀ x y, (dec x).dropLast <+: dec (x ++ y)

section
variable {dec : List ℤ → Text} {cur y : List ℤ} {ms : List (List ℤ)}

/-- The printable part of the undecided tokens, which has been sent. -/
def pending (dec : List ℤ → Text) (cur : List ℤ) : ℕ := (findPrintableText (dec cur)).length

/-- The text sent for the messages `ms`, when `cur` are the tokens since the last clean point. -/
def emitted (dec : List ℤ → Text) (cur : List ℤ) : List (List ℤ) → Text
  | [] => []
  | m :: ms =>
    if Clean (dec (cur ++ m)) then
      (dec (cur ++ m)).drop (pending dec cur) ++ emitted dec [] ms
    else
      (findPrintableText (dec (cur ++ m))).drop (pending dec cur) ++ emitted dec (cur ++ m) ms

/-- How much of the text is sent when the messages `ms` have been decoded. -/
def released (dec : List ℤ → Text) (cur : List ℤ) : List (List ℤ) → ℕ
  | [] => pending dec cur
  | m :: ms =>
    if Clean (dec (cur ++ m)) then (dec (cur ++ m)).length + released dec [] ms
    else released dec (cur ++ m) ms

/-- No message takes back text that the message before it has sent. -/
def Steady (dec : List ℤ → Text) (cur : List ℤ) : List (List ℤ) → Prop
  | [] => True
  | m :: ms =>
    if Clean (dec (cur ++ m)) then Steady dec [] ms
    else ¬ Retreats (dec cur) (dec (cur ++ m)) ∧ Steady dec (cur ++ m) ms

instance Steady.decidable (dec : List ℤ → Text) :
    (cur : List ℤ) → (ms : List (List ℤ)) → Decidable (Steady dec cur ms)
  | _, [] => .isTrue trivial
  | cur, m :: ms =>
    have := Steady.decidable dec [] ms
    have := Steady.decidable dec (cur ++ m) ms
    inferInstanceAs (Decidable (if Clean (dec (cur ++ m)) then Steady dec [] ms
      else ¬ Retreats (dec cur) (dec (cur ++ m)) ∧ Steady dec (cur ++ m) ms))

variable (hdec : Incremental dec)

include hdec

lemma Incremental.not_clean_nil : ¬ Clean (dec []) := by
  rw [hdec.nil]
  exact fun h => h.1 rfl

lemma pending_nil : pending dec [] = 0 := by
  rw [pending, hdec.nil]
  rfl

section
variable (hcur : ¬ Clean (dec cur))

include hcur

/-- A printable beginning stays a beginning when more tokens come. -/
lemma printable_isPrefix (y : List ℤ) : findPrintableText (dec cur) <+: dec (cur ++ y) :=
  (findPrintableText_isPrefix hcur).trans (hdec.stable cur y)

lemma pending_le (y : List ℤ) : pending dec cur ≤ (dec (cur ++ y)).length :=
  (printable_isPrefix hdec hcur y).length_le

/-- A message takes text back exactly if less of it counts as printable than before. -/
lemma retreats_iff_pending {m : List ℤ}
    (hm : ¬ Clean (dec (cur ++ m))) :
    Retreats (dec cur) (dec (cur ++ m)) ↔ pending dec (cur ++ m) < pending dec cur :=
  retreats_iff hcur hm (hdec.stable cur m)

/-- No more is released than there is text. -/
lemma released_le (ms : List (List ℤ)) (y : List ℤ) :
    released dec cur ms ≤ (dec (cur ++ (ms.flatten ++ y))).length := by
  induction ms generalizing cur with
  | nil => exact pending_le hdec hcur _
  | cons m ms ih =>
    rw [released, flatten_cons, append_assoc, ← append_assoc cur]
    by_cases hc : Clean (dec (cur ++ m))
    · have := ih hdec.not_clean_nil
      rw [nil_append] at this
      rw [if_pos hc, hdec.append _ hc, length_append]
      omega
    · rw [if_neg hc]
      exact ih hc

end

/-- The messages send at least as much as they are meant to. -/
lemma released_le_emitted (cur : List ℤ) (ms : List (List ℤ)) :
    released dec cur ms ≤ (emitted dec cur ms).length + pending dec cur := by
  induction ms generalizing cur with
  | nil => simp [released, emitted]
  | cons m ms ih =>
    rw [released, emitted]
    by_cases hc : Clean (dec (cur ++ m))
    · grind [pending_nil]
    · grind [pending]

/-- **A message that takes text back makes the pieces too long.** -/
theorem released_lt (hcur : ¬ Clean (dec cur)) (h : ¬ Steady dec cur ms) :
    released dec cur ms < (emitted dec cur ms).length + pending dec cur := by
  induction ms generalizing cur with
  | nil => exact absurd trivial h
  | cons m ms ih =>
    rw [Steady] at h
    rw [released, emitted]
    by_cases hc : Clean (dec (cur ++ m))
    · grind [hdec.not_clean_nil, pending_nil]
    · grind [pending, retreats_iff_pending, released_le_emitted]

lemma pending_le_released (hcur : ¬ Clean (dec cur)) (h : Steady dec cur ms) :
    pending dec cur ≤ released dec cur ms := by
  induction ms generalizing cur with
  | nil => exact le_rfl
  | cons m ms ih =>
    rw [Steady] at h
    rw [released]
    by_cases hc : Clean (dec (cur ++ m))
    · have := pending_le hdec hcur m
      rw [if_pos hc]
      omega
    · grind [retreats_iff_pending]

/-- **The pieces are the beginning of the text, as long as nothing is taken back.** -/
theorem emitted_eq (hcur : ¬ Clean (dec cur)) (h : Steady dec cur ms) (y : List ℤ) :
    emitted dec cur ms =
      ((dec (cur ++ (ms.flatten ++ y))).take (released dec cur ms)).drop (pending dec cur) := by
  induction ms generalizing cur with
  | nil =>
    rw [emitted, released, drop_take, Nat.sub_self, take_zero]
  | cons m ms ih =>
    have hle := pending_le_released hdec hcur h
    rw [Steady] at h
    rw [released] at hle
    rw [emitted, released, flatten_cons, append_assoc, ← append_assoc cur]
    by_cases hc : Clean (dec (cur ++ m))
    · rw [if_pos hc] at h
      rw [if_pos hc, if_pos hc, hdec.append _ hc, take_length_add_append,
        drop_append_of_le_length (pending_le hdec hcur m), ih hdec.not_clean_nil h,
        pending_nil hdec, drop_zero, nil_append]
    · rw [if_neg hc] at h hle
      rw [if_neg hc, if_neg hc, ih hc h.2]
      have hp := not_lt.1 ((retreats_iff_pending hdec hcur hc).not.1 h.1)
      have hq := pending_le_released hdec hc h.2
      obtain ⟨v, hv⟩ := printable_isPrefix hdec hc (ms.flatten ++ y)
      have hpn : (findPrintableText (dec (cur ++ m))).length = pending dec (cur ++ m) := rfl
      set F := dec (cur ++ m ++ (ms.flatten ++ y))
      set N := released dec (cur ++ m) ms
      -- the printable part and what follows it, cut out of one text
      have hsplit : (F.take N).drop (pending dec cur) =
          ((F.take N).take (pending dec (cur ++ m))).drop (pending dec cur) ++
            (F.take N).drop (pending dec (cur ++ m)) := by
        conv_lhs => rw [← take_append_drop (pending dec (cur ++ m)) (F.take N)]
        rw [drop_append_of_le_length]
        rw [take_take, min_eq_left hq, ← hv, length_take, length_append]
        omega
      rw [hsplit, take_take, min_eq_left hq]
      congr 2
      rw [← hv, ← hpn, take_left]

/-- The pieces and what is left of a text `out` that the whole text begins with give `out` exactly
if nothing is taken back and no more than `out` has been sent. -/
lemma emitted_append_drop_iff {out : Text} (hout : out <+: dec (ms.flatten ++ y)) :
    emitted dec [] ms ++ out.drop (released dec [] ms) = out ↔
      Steady dec [] ms ∧ released dec [] ms ≤ out.length := by
  have hnil := hdec.not_clean_nil
  constructor
  · intro h
    have hlen := congrArg List.length h
    rw [length_append, length_drop] at hlen
    have hge := released_le_emitted hdec [] ms
    rw [pending_nil hdec] at hge
    by_cases hs : Steady dec [] ms
    · grind
    have := released_lt hdec hnil hs
    rw [pending_nil hdec] at this
    omega
  · rintro ⟨hs, hle⟩
    have heq := emitted_eq hdec hnil hs y
    rw [pending_nil hdec, drop_zero, nil_append] at heq
    obtain ⟨v, hv⟩ := hout
    rw [heq, ← hv, take_append_of_le_length hle, take_append_drop]

end
end Sglang.Output
