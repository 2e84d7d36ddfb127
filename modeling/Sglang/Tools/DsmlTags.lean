import Sglang.Tools.Dsml

/-!
# The tags of the DSML formats

What the regular expressions of the DSML detectors match, in terms of the texts: one equivalence for
each part of a tag.
-/

namespace Sglang.Tools.Dsml
open Lib List Option

variable {f : Format} {s r w : Text}

/-- A text that whitespace can be told apart from. -/
def NotBlankHead (s : Text) : Prop := ∀ c, s.head? = some c → isSpace c = false

lemma lit_eq_some : lit w s = some r ↔ s = w ++ r := by
  rw [lit]
  constructor
  · intro h
    split_ifs at h with hp
    obtain ⟨y, rfl⟩ := hp
    rw [drop_left, Option.some.injEq] at h
    rw [h]
  · grind

lemma lit_eq_none : lit w s = none ↔ ¬ w <+: s := by
  simp [lit]

lemma notBlankHead_dropWhile (s : Text) : NotBlankHead (s.dropWhile isSpace) := by
  intro c hc
  have := head?_dropWhile_not isSpace s
  rw [hc] at this
  simpa using this

lemma dropWhile_blank_append {sp : Text} (hsp : Blank sp) (hr : NotBlankHead r) :
    (sp ++ r).dropWhile isSpace = r := by
  rw [dropWhile_append_of_pos hsp]
  cases r with
  | nil => rfl
  | cons c r => rw [dropWhile_cons_of_neg (by rw [hr c rfl]; nofun)]

lemma takeWhile_blank_append {sp : Text} (hsp : Blank sp) (hr : NotBlankHead r) :
    (sp ++ r).takeWhile isSpace = sp := by
  rw [takeWhile_append_of_pos hsp]
  cases r with
  | nil => rw [takeWhile_nil, append_nil]
  | cons c r => rw [takeWhile_cons_of_neg (by rw [hr c rfl]; nofun), append_nil]

/-- `\s*` -/
lemma dropWhile_eq_iff :
    s.dropWhile isSpace = r ↔ ∃ sp, Blank sp ∧ NotBlankHead r ∧ s = sp ++ r := by
  constructor
  · rintro rfl
    exact ⟨s.takeWhile isSpace, fun c hc => mem_takeWhile_imp hc, notBlankHead_dropWhile s,
      takeWhile_append_dropWhile.symm⟩
  · grind [dropWhile_blank_append]

/-- `\s+` -/
lemma spaces_eq_some :
    spaces s = some r ↔ ∃ sp, sp ≠ [] ∧ Blank sp ∧ NotBlankHead r ∧ s = sp ++ r := by
  rw [spaces]
  constructor
  · intro h
    split_ifs at h with hnil
    rw [Option.some.injEq] at h
    subst h
    exact ⟨s.takeWhile isSpace, hnil, fun c hc => mem_takeWhile_imp hc,
      notBlankHead_dropWhile s, takeWhile_append_dropWhile.symm⟩
  · grind [takeWhile_blank_append, dropWhile_blank_append]

/-- `([^"]+)"` -/
lemma quoted_eq_some :
    quoted s = some (w, r) ↔ w ≠ [] ∧ '\"' ∉ w ∧ s = w ++ '\"' :: r := by
  rw [quoted]
  constructor
  · intro h
    split_ifs at h with hnil
    obtain ⟨r', hr', heq⟩ := map_eq_some_iff.1 h
    obtain ⟨rfl, rfl⟩ := Prod.mk.inj heq
    rw [lit_eq_some] at hr'
    refine ⟨hnil, fun hmem => ?_, ?_⟩
    · simpa using mem_takeWhile_imp hmem
    · rw [← singleton_append, ← hr', takeWhile_append_dropWhile]
  · rintro ⟨hne, hw, rfl⟩
    have hall : ∀ c ∈ w, decide (c ≠ '\"') = true := fun c hc =>
      decide_eq_true fun h => hw (h ▸ hc)
    have htake : (w ++ '\"' :: r).takeWhile (· ≠ '\"') = w := by
      rw [takeWhile_append_of_pos hall, takeWhile_cons_of_neg (by simp), append_nil]
    have hdrop : (w ++ '\"' :: r).dropWhile (· ≠ '\"') = '\"' :: r := by
      rw [dropWhile_append_of_pos hall, dropWhile_cons_of_neg (by simp)]
    rw [htake, hdrop, if_neg hne, lit_eq_some.2 (singleton_append).symm]
    rfl

/-- The text of an attribute. -/
def attrText (name w : Text) : Text := name ++ "=\"".toList ++ w ++ ['\"']

/-- What can stand between the quotation marks. -/
def Quotable (w : Text) : Prop := w ≠ [] ∧ '\"' ∉ w

/-- What the expression for an attribute matches. -/
lemma attr_eq_some {name : Text} (hname : ∃ c n, name = c :: n ∧ isSpace c = false) :
    attr name s = some (w, r) ↔
      ∃ sp, sp ≠ [] ∧ Blank sp ∧ Quotable w ∧ s = sp ++ attrText name w ++ r := by
  simp only [attr, bind_eq_bind, bind_eq_some_iff, spaces_eq_some, lit_eq_some, quoted_eq_some]
  constructor
  · rintro ⟨_, ⟨sp, hne, hsp, -, rfl⟩, _, rfl, hw, hq, rfl⟩
    refine ⟨sp, hne, hsp, ⟨hw, hq⟩, ?_⟩
    simp only [attrText, append_assoc, singleton_append]
  · rintro ⟨sp, hne, hsp, ⟨hw, hq⟩, rfl⟩
    obtain ⟨c, n, rfl, hc⟩ := hname
    refine ⟨attrText (c :: n) w ++ r, ⟨sp, hne, hsp, ?_, append_assoc _ _ _⟩,
      w ++ '\"' :: r, ?_, hw, hq, rfl⟩
    · intro a ha
      rw [← Option.some.inj ha]
      exact hc
    · simp only [attrText, append_assoc, singleton_append]

lemma name_head : ∃ c n, "name".toList = c :: n ∧ isSpace c = false :=
  ⟨'n', ['a', 'm', 'e'], rfl, rfl⟩

lemma string_head : ∃ c n, "string".toList = c :: n ∧ isSpace c = false :=
  ⟨'s', ['t', 'r', 'i', 'n', 'g'], rfl, rfl⟩

/-- `<invoke\s+name="(?P<name>[^"]+)"\s*` -/
lemma matchInvokeName_eq_some :
    matchInvokeName f s = some (w, r) ↔
      ∃ sp sp', sp ≠ [] ∧ Blank sp ∧ Quotable w ∧ Blank sp' ∧ NotBlankHead r ∧
        s = f.invokeStartToken ++ sp ++ attrText "name".toList w ++ sp' ++ r := by
  simp only [matchInvokeName, bind_eq_bind, bind_eq_some_iff, lit_eq_some,
    Prod.exists, Option.some.injEq, Prod.mk.injEq, attr_eq_some name_head, dropWhile_eq_iff]
  constructor
  · rintro ⟨_, rfl, _, _, ⟨sp, hne, hsp, hw, rfl⟩, rfl, sp', hsp', hr, rfl⟩
    exact ⟨sp, sp', hne, hsp, hw, hsp', hr, by simp only [append_assoc]⟩
  · rintro ⟨sp, sp', hne, hsp, hw, hsp', hr, rfl⟩
    exact ⟨sp ++ attrText "name".toList w ++ (sp' ++ r), by simp only [append_assoc], w,
      sp' ++ r, ⟨sp, hne, hsp, hw, rfl⟩, rfl, sp', hsp', hr, rfl⟩

/-- An opening tag of an invoke, closed by `>` or by `/>`. -/
def invokeOpening (f : Format) (sp w sp' close : Text) : Text :=
  f.invokeStartToken ++ sp ++ attrText "name".toList w ++ sp' ++ close

/-- Where `invoke_regex` matches, there is an opening tag. -/
lemma exists_invokeOpening {m : InvokeMatch} (h : matchInvoke f s = some m) :
    ∃ sp w sp' close, sp ≠ [] ∧ Blank sp ∧ Quotable w ∧ Blank sp' ∧
      close ∈ ["/>".toList, [ '>']] ∧ invokeOpening f sp w sp' close <+: s := by
  rw [matchInvoke, bind_eq_bind, bind_eq_some_iff] at h
  obtain ⟨⟨w, r⟩, hname, h⟩ := h
  obtain ⟨sp, sp', hne, hsp, hw, hsp', -, rfl⟩ := matchInvokeName_eq_some.1 hname
  suffices hclose : ∃ close ∈ ["/>".toList, ['>']], close <+: r by
    obtain ⟨close, hmem, y, rfl⟩ := hclose
    exact ⟨sp, w, sp', close, hne, hsp, hw, hsp', hmem, y, by
      simp only [invokeOpening, append_assoc]⟩
  dsimp only at h
  split at h
  · simp_all [lit_eq_some]
  rw [bind_eq_bind, bind_eq_some_iff] at h
  obtain ⟨r', hr', -⟩ := h
  rw [lit_eq_some] at hr'
  exact ⟨_, by simp, r', hr'.symm⟩

/-! ## Searching -/

/-- A search fails if there is no match at any place. -/
lemma search_eq_none {β : Type} {m : Text → Option β} :
    search m s = none ↔ ∀ t, t <:+ s → m t = none := by
  induction s with
  | nil =>
    simp [search]
  | cons c s ih =>
    rw [search]
    cases hm : m (c :: s) with
    | some x => exact iff_of_false nofun fun h => by rw [h _ suffix_rfl] at hm; cases hm
    | none =>
      rw [ih]
      constructor
      · intro h t ht
        rcases suffix_cons_iff.1 ht with rfl | ht'
        · exact hm
        · exact h t ht'
      · grind

/-- A search skips what cannot begin a match. -/
lemma search_append {β : Type} {m : Text → Option β} {a : Text}
    (h : ∀ i < a.length, m ((a ++ s).drop i) = none) : search m (a ++ s) = search m s := by
  induction a with
  | nil => rfl
  | cons c a ih =>
    have h0 : m (c :: (a ++ s)) = none := h 0 (Nat.succ_pos _)
    rw [cons_append, search, h0]
    exact ih fun i hi => h (i + 1) (Nat.succ_lt_succ hi)

lemma search_of_eq_some {β : Type} {m : Text → Option β} {x : β} (h : m s = some x) :
    search m s = some x := by
  cases s with
  | nil => rw [search, h]
  | cons c s => rw [search, h]

/-! ## Opening tags -/

/-- `invoke_regex` at an opening tag. -/
lemma matchInvoke_open {sp sp' : Text} (hne : sp ≠ []) (hsp : Blank sp) (hw : Quotable w)
    (hsp' : Blank sp') (r : Text) :
    matchInvoke f (invokeOpening f sp w sp' ['>'] ++ r) =
      some (match find f.invokeEndToken r with
        | some p => ⟨strip w, r.take p, true, r.drop (p + f.invokeEndToken.length)⟩
        | none => ⟨strip w, untilDollar r, false, r.drop (untilDollar r).length⟩) := by
  have hname : matchInvokeName f (invokeOpening f sp w sp' ['>'] ++ r) = some (w, '>' :: r) := by
    refine matchInvokeName_eq_some.2 ⟨sp, sp', hne, hsp, hw, hsp', ?_, ?_⟩
    · intro c hc
      rw [← Option.some.inj hc]
      rfl
    · simp only [invokeOpening, append_assoc, singleton_append]
  rw [matchInvoke, hname, bind_eq_bind, bind_some]
  dsimp only
  rw [lit_eq_some.2 singleton_append.symm, bind_eq_bind, bind_some]
  cases find f.invokeEndToken r <;> rfl

end Sglang.Tools.Dsml
