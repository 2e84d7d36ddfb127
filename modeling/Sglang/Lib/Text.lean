import Mathlib.Tactic

/-!
# Looking for a word in a text

`OccursAt w s i` says that the word `w` stands in the text `s` from position `i` on, and `find` is
the first such position.  What the stream of a text is about is how this changes as the text grows:
an occurrence stays (`OccursAt.append`), the first one stays the first (`find_append`), and an
occurrence that was not there before reaches into what was added (`OccursAt.of_append`).
-/

namespace Lib
open List

universe u

variable {α : Type u} {w s t : List α} {i j : ℕ}

/-! ## Occurrences -/

/-- The word `w` stands in `s` from position `i` on. -/
def OccursAt (w s : List α) (i : ℕ) : Prop := i + w.length ≤ s.length ∧ w <+: s.drop i

instance [DecidableEq α] : Decidable (OccursAt w s i) := inferInstanceAs (Decidable (_ ∧ _))

lemma occursAt_iff : OccursAt w s i ↔ ∃ a b, s = a ++ w ++ b ∧ a.length = i := by
  constructor
  · rintro ⟨hi, b, hb⟩
    refine ⟨s.take i, b, ?_, by rw [length_take]; omega⟩
    rw [append_assoc, hb, take_append_drop]
  · rintro ⟨a, b, rfl, rfl⟩
    refine ⟨by simp, b, ?_⟩
    rw [append_assoc, drop_left]

lemma infix_iff_occursAt : w <:+: s ↔ ∃ i, OccursAt w s i := by
  constructor
  · rintro ⟨a, b, rfl⟩
    exact ⟨a.length, occursAt_iff.2 ⟨a, b, rfl, rfl⟩⟩
  · rintro ⟨i, h⟩
    obtain ⟨a, b, rfl, -⟩ := occursAt_iff.1 h
    exact ⟨a, b, rfl⟩

lemma OccursAt.append (h : OccursAt w s i) (t : List α) : OccursAt w (s ++ t) i := by
  obtain ⟨a, b, rfl, rfl⟩ := occursAt_iff.1 h
  exact occursAt_iff.2 ⟨a, b ++ t, by simp, rfl⟩

/-- What lies inside the first part does not need the second. -/
lemma OccursAt.of_append (h : OccursAt w (s ++ t) i) (hi : i + w.length ≤ s.length) :
    OccursAt w s i := by
  refine ⟨hi, ?_⟩
  have h' := h.2
  rw [drop_append_of_le_length (by omega)] at h'
  exact prefix_of_prefix_length_le h' (prefix_append _ _)
    (by rw [length_drop]; omega)

lemma occursAt_append_left : OccursAt w (t ++ s) (t.length + i) ↔ OccursAt w s i := by
  rw [OccursAt, OccursAt, length_append, drop_append, drop_eq_nil_of_le (by omega),
    nil_append, Nat.add_sub_cancel_left, Nat.add_assoc, Nat.add_le_add_iff_left]

lemma occursAt_cons_succ {a : α} : OccursAt w (a :: s) (i + 1) ↔ OccursAt w s i := by
  rw [Nat.add_comm]
  exact occursAt_append_left (t := [a])

lemma occursAt_zero : OccursAt w s 0 ↔ w <+: s := by
  grind [OccursAt]

/-- An occurrence that the second part completes. -/
lemma occursAt_of_not_infix (h : OccursAt w (s ++ t) i) (hs : ¬ w <:+: s) :
    s.length < i + w.length :=
  not_le.1 fun hi => hs (infix_iff_occursAt.2 ⟨i, h.of_append hi⟩)

lemma OccursAt.infix_drop (h : OccursAt w s i) (hj : j ≤ i) : w <:+: s.drop j := by
  obtain ⟨k, rfl⟩ := Nat.exists_eq_add_of_le hj
  obtain ⟨b, hb⟩ := h.2
  rw [← drop_drop] at hb
  exact (prefix_append w b).isInfix.trans (hb ▸ (drop_suffix k _).isInfix)

lemma OccursAt.getElem? (h : OccursAt w s i) {k : ℕ} (hk : k < w.length) : s[i + k]? = w[k]? := by
  obtain ⟨x, y, rfl, rfl⟩ := occursAt_iff.1 h
  rw [append_assoc, getElem?_append_right (by omega), Nat.add_sub_cancel_left,
    getElem?_append_left hk]

/-- A word that begins with a letter which another one does not have further on does not begin
inside of that one. -/
lemma OccursAt.no_overlap {c : α} {v : List α} (hw : c ∉ w.tail) (hv : v.head? = some c)
    (h : OccursAt w s i) (h' : OccursAt v s j) (hij : i < j) : i + w.length ≤ j := by
  by_contra hlt
  obtain ⟨k, rfl⟩ := Nat.exists_eq_add_of_lt hij
  have hv0 : 0 < v.length := by
    grind
  have hwk := h.getElem? (k := k + 1) (by omega)
  have hvk := h'.getElem? hv0
  rw [← head?_eq_getElem?, hv, Nat.add_zero] at hvk
  rw [← Nat.add_assoc, hvk] at hwk
  refine hw (mem_of_getElem? (i := k) ?_)
  rw [getElem?_tail]
  exact hwk.symm

/-- Where the first part ends inside an occurrence, it ends with the beginning of the word. -/
lemma OccursAt.drop_eq_take (h : OccursAt w (s ++ t) i) (hi : i ≤ s.length)
    (hend : s.length ≤ i + w.length) : s.drop i = w.take (s.length - i) := by
  have hw : w <+: s.drop i ++ t := by
    rw [← drop_append_of_le_length hi]
    exact h.2
  have h1 : w.take (s.length - i) <+: s.drop i ++ t := ( take_prefix _ _).trans hw
  refine ((prefix_of_prefix_length_le h1 (prefix_append _ _) ?_).eq_of_length ?_).symm
  · grind
  · grind

/-! ## A text made of pieces -/

section
variable {β : Type u} {f : β → List α} {l : List β} {a b d n N : ℕ}

lemma length_flatMap_take_mono (f : β → List α) (l : List β) (h : a ≤ b) :
    ((l.take a).flatMap f).length ≤ ((l.take b).flatMap f).length := by
  rw [← Nat.add_sub_cancel' h, take_add, flatMap_append, length_append]
  omega

lemma lt_of_length_flatMap_take_lt
    (h : ((l.take a).flatMap f).length < ((l.take b).flatMap f).length) : a < b :=
  not_le.1 fun hba => absurd h (not_lt.2 (length_flatMap_take_mono f l hba))

lemma flatMap_take_drop (f : β → List α) (l : List β) (n : ℕ) :
    l.flatMap f = (l.take n).flatMap f ++ (l.drop n).flatMap f := by
  rw [← flatMap_append, take_append_drop]

lemma infix_of_infix_drop (h : w <:+: (l.drop b).flatMap f) (hab : a ≤ b) :
    w <:+: (l.drop a).flatMap f := by
  rw [flatMap_take_drop f (l.drop a) (b - a), drop_drop, Nat.add_sub_cancel' hab]
  exact h.trans (suffix_append _ _).isInfix

lemma infix_flatMap_drop (h : OccursAt w (l.flatMap f) i)
    (hi : ((l.take d).flatMap f).length ≤ i) : w <:+: (l.drop d).flatMap f := by
  obtain ⟨k, rfl⟩ := Nat.exists_eq_add_of_le hi
  rw [flatMap_take_drop f l d, occursAt_append_left] at h
  exact infix_iff_occursAt.2 ⟨k, h⟩

lemma OccursAt.of_drop (h : OccursAt w ((l.drop d).flatMap f) i) :
    OccursAt w (l.flatMap f) (((l.take d).flatMap f).length + i) := by
  rw [flatMap_take_drop f l d]
  exact occursAt_append_left.2 h

/-- A word that the last of the pieces completes lies in the last `N` of them, if that is how far
its occurrences reach. -/
lemma infix_drop_of_new
    (hspan : ∀ i, OccursAt w (l.flatMap f) i → ∃ a b, b ≤ a + N ∧
      ((l.take a).flatMap f).length ≤ i ∧ i + w.length ≤ ((l.take b).flatMap f).length)
    (hnew : w <:+: ((l.take (n + 1)).drop a).flatMap f)
    (hold : ¬ w <:+: ((l.take n).drop a).flatMap f) (ha : a ≤ n) (hd : d ≤ n + 1 - N) :
    w <:+: ((l.take (n + 1)).drop d).flatMap f := by
  obtain ⟨i, hi⟩ := infix_iff_occursAt.1 hnew
  have hat := hi.of_drop
  rw [take_take, min_eq_left (by omega)] at hat
  set c := ((l.take a).flatMap f).length + i with hc
  have hall : OccursAt w (l.flatMap f) c := by
    rw [flatMap_take_drop f l (n + 1)]
    exact hat.append _
  have hlast : ((l.take n).flatMap f).length < c + w.length := by
    refine not_le.1 fun hle => hold ?_
    have hat' := hall
    rw [flatMap_take_drop f l n] at hat'
    refine infix_flatMap_drop (hat'.of_append hle) ?_
    rw [take_take, min_eq_left ha]
    omega
  obtain ⟨a', b', hab, ha', hb'⟩ := hspan c hall
  have hb : n < b' := lt_of_length_flatMap_take_lt (hlast.trans_le hb')
  refine infix_flatMap_drop hat ?_
  rw [take_take, min_eq_left (by omega)]
  exact (length_flatMap_take_mono f l (by omega)).trans ha'

end

/-! ## The first occurrence -/

variable [DecidableEq α]

/-- The first position at which `w` stands in `s`. -/
def find (w : List α) : List α → Option ℕ
  | [] => if w = [] then some 0 else none
  | a :: s => if w <+: a :: s then some 0 else (find w s).map (· + 1)

lemma find_eq_some : find w s = some i ↔ OccursAt w s i ∧ ∀ j < i, ¬ OccursAt w s j := by
  induction s generalizing i with
  | nil =>
    rw [find]
    by_cases hw : w = []
    · subst hw
      rw [if_pos rfl, Option.some_inj]
      constructor
      · rintro rfl
        exact ⟨occursAt_zero.2 nil_prefix, fun j hj => absurd hj (Nat.not_lt_zero j)⟩
      · intro h
        have := h.1.1
        omega
    · rw [if_neg hw]
      refine iff_of_false (fun h => by cases h) fun h => hw ?_
      have := h.1.1
      simp only [length_nil] at this
      exact length_eq_zero_iff.1 (by omega)
  | cons a s ih =>
    rw [find]
    by_cases hw : w <+: a :: s
    · rw [if_pos hw, Option.some_inj]
      constructor
      · rintro rfl
        exact ⟨occursAt_zero.2 hw, fun j hj => absurd hj (Nat.not_lt_zero j)⟩
      · intro h
        by_contra hne
        exact h.2 0 (by omega) (occursAt_zero.2 hw)
    · rw [if_neg hw, Option.map_eq_some_iff]
      constructor
      · rintro ⟨k, hk, rfl⟩
        obtain ⟨hat, hfirst⟩ := ih.1 hk
        refine ⟨occursAt_cons_succ.2 hat, fun j hj => ?_⟩
        cases j with
        | zero => exact fun h => hw (occursAt_zero.1 h)
        | succ j => exact fun h => hfirst j (by omega) (occursAt_cons_succ.1 h)
      · intro h
        cases i with
        | zero => exact absurd (occursAt_zero.1 h.1) hw
        | succ i =>
          exact ⟨i, ih.2 ⟨occursAt_cons_succ.1 h.1, fun j hj hat =>
            h.2 (j + 1) (by omega) (occursAt_cons_succ.2 hat)⟩, rfl⟩

lemma OccursAt.exists_find (h : OccursAt w s i) : ∃ k ≤ i, find w s = some k := by
  induction i using Nat.strong_induction_on with
  | _ i ih =>
    by_cases hfirst : ∃ j < i, OccursAt w s j
    · grind
    · push Not at hfirst
      exact ⟨i, le_rfl, find_eq_some.2 ⟨h, hfirst⟩⟩

lemma find_eq_none : find w s = none ↔ ¬ w <:+: s := by
  rw [infix_iff_occursAt, not_exists]
  constructor
  · intro h i hat
    obtain ⟨k, -, hk⟩ := hat.exists_find
    rw [h] at hk
    cases hk
  · intro h
    cases hf : find w s with
    | none => rfl
    | some i => exact absurd (find_eq_some.1 hf).1 (h i)

lemma find_isSome : (find w s).isSome = true ↔ w <:+: s := by
  simp [← not_iff_not, ← find_eq_none]

/-- **The first occurrence stays the first as the text grows.** -/
theorem find_append (h : find w s = some i) (t : List α) : find w (s ++ t) = some i := by
  obtain ⟨hat, hfirst⟩ := find_eq_some.1 h
  refine find_eq_some.2 ⟨hat.append t, fun j hj hat' => hfirst j hj (hat'.of_append ?_)⟩
  have := hat.1
  omega

/-- A word without its first letter further on is found after a text that does not have it. -/
lemma find_append_word {c : α} (hw : w.head? = some c) (hw' : c ∉ w.tail) (hs : ¬ w <:+: s)
    (t : List α) : find w (s ++ (w ++ t)) = some s.length := by
  have hat : OccursAt w (s ++ (w ++ t)) s.length :=
    occursAt_iff.2 ⟨s, t, (append_assoc _ _ _).symm, rfl⟩
  refine find_eq_some.2 ⟨hat, fun j hj hat' => hs ?_⟩
  have hle := hat'.no_overlap hw' hw hat hj
  exact infix_iff_occursAt.2 ⟨j, hat'.of_append hle⟩

/-- It is not found before all of it is there. -/
lemma find_take_word {c : α} (hw : w.head? = some c) (hw' : c ∉ w.tail) (hs : ¬ w <:+: s)
    {n : ℕ} (hn : n < (s ++ w).length) : find w ((s ++ w).take n) = none := by
  rw [find_eq_none]
  intro hin
  obtain ⟨p, hp⟩ := infix_iff_occursAt.1 hin
  have hfirst := (find_eq_some.1 (find_append_word hw hw' hs [])).2 p
  have hat := hp.append ((s ++ w).drop n)
  have hle := hp.1
  rw [take_append_drop] at hat
  rw [length_take] at hle
  rw [length_append] at hle hn
  rw [append_nil] at hfirst
  exact hfirst (by omega) hat

end Lib
