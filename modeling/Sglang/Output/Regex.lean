import Sglang.Output.StopParams

/-!
# The bound on a stop regex in the server

`utils/regex.rs` of the Rust server bounds a match by the HIR of the pattern (`hir_max_len`) and
remembers the bounds of the patterns it has admitted (`ADMISSION_CACHE`).  Which patterns are
admitted and what their HIRs are is a parameter, `parse`.

The bound of a repetition or a concatenation is cut at `2 ^ 30`, that of a literal is its length.
So `2 ^ 30` is the largest bound only because `normalize_stops` refuses long patterns before it asks
for one (`normalizeStopRegex`) and a literal is no longer than its pattern (`LiteralsWritten`).
`stop_regex_bounds_sound` has both this bound and that of the parse tree.
-/

namespace Sglang.Output
open List Lib

/-- `HirKind`; a literal is given by its characters. -/
inductive Hir
  | empty
  | literal (text : Text)
  | cls (accepts : Char → Bool)
  | look (holds : Text → Text → Bool)
  | rep (min : ℕ) (max : Option ℕ) (sub : Hir)
  | capture (sub : Hir)
  | concat (subs : List Hir)
  | alternation (subs : List Hir)

/-- Arithmetic of `usize` that saturates. -/
def saturate (n : ℕ) : ℕ := min n (2 ^ 64 - 1)

/-- `hir_max_len`. -/
def Hir.maxLength : Hir → ℕ
  | .empty | .look _ => 0
  | .literal text => (Utf8.encode text).length
  | .cls _ => 1
  | .rep _ none _ => maxLen
  | .rep _ (some n) sub => min (saturate (n * sub.maxLength)) maxLen
  | .capture sub => sub.maxLength
  | .concat subs => min ((subs.map Hir.maxLength).foldl (fun n m => saturate (n + m)) 0) maxLen
  | .alternation subs => (subs.map Hir.maxLength).max?.getD 0

/-- The HIRs match the text from position `i` to position `j`, one after the other. -/
inductive HirMatches (text : Text) : List Hir → ℕ → ℕ → Prop
  | nil {i} : HirMatches text [] i i
  | empty {hs i j} : HirMatches text hs i j → HirMatches text (.empty :: hs) i j
  | literal {s hs i j} : s <+: text.drop i → HirMatches text hs (i + s.length) j →
      HirMatches text (.literal s :: hs) i j
  | cls {accepts hs i j c} : text[i]? = some c → accepts c = true →
      HirMatches text hs (i + 1) j → HirMatches text (.cls accepts :: hs) i j
  | look {holds hs i j} : holds (text.take i) (text.drop i) = true → HirMatches text hs i j →
      HirMatches text (.look holds :: hs) i j
  | rep {lo n : ℕ} {hi : Option ℕ} {h hs i j} : lo ≤ n → (∀ m ∈ hi, n ≤ m) →
      HirMatches text (replicate n h ++ hs) i j → HirMatches text (.rep lo hi h :: hs) i j
  | capture {h hs i j} : HirMatches text (h :: hs) i j → HirMatches text (.capture h :: hs) i j
  | concat {subs hs i j} : HirMatches text (subs ++ hs) i j →
      HirMatches text (.concat subs :: hs) i j
  | alternation {h subs hs i j} : h ∈ subs → HirMatches text (h :: hs) i j →
      HirMatches text (.alternation subs :: hs) i j

/-- `RegexPattern::build`: the bound, and the cache afterwards. -/
def build (parse : Text → Option Hir) (cache : Map Text ℕ) (pattern : Text) :
    Option ℕ × Map Text ℕ :=
  match cache.lookup pattern with
  | some n => (some n, cache)
  | none =>
    match parse pattern with
    | none => (none, cache)
    | some hir =>
      let cache := if 512 ≤ cache.entries.length then ∅ else cache
      (some hir.maxLength, cache.insert pattern hir.maxLength)

/-- `MAX_STOP_REGEX_LEN` -/
def maxStopRegexLen : ℕ := 256

/-- What `normalize_stops` does with one pattern: one of more bytes than the limit never comes to
`RegexPattern`. -/
def normalizeStopRegex (parse : Text → Option Hir) (cache : Map Text ℕ) (pattern : Text) :
    Option ℕ × Map Text ℕ :=
  if maxStopRegexLen < (Utf8.encode pattern).length then (none, cache)
  else build parse cache pattern

/-- The literals of an HIR. -/
def Hir.literals : Hir → List Text
  | .empty | .look _ | .cls _ => []
  | .literal text => [text]
  | .rep _ _ sub | .capture sub => sub.literals
  | .concat subs | .alternation subs => subs.flatMap Hir.literals

/-- What is asked of the parser: a literal of the HIR is written out in the pattern, so it has no
more bytes than the pattern.  (Counted repetitions stay repetitions in the HIR.) -/
def LiteralsWritten (parse : Text → Option Hir) : Prop :=
  ∀ p hir, parse p = some hir →
    ∀ s ∈ hir.literals, (Utf8.encode s).length ≤ (Utf8.encode p).length

/-! ## The bound of an HIR -/

/-- Only a literal can have a bound above `2 ^ 30`: the other bounds are cut there, or are those of
a part. -/
lemma Hir.maxLength_le {hir : Hir} (h : ∀ s ∈ hir.literals, (Utf8.encode s).length ≤ maxLen) :
    hir.maxLength ≤ maxLen := by
  fun_induction Hir.maxLength hir with
  | case1 | case2 => exact Nat.zero_le _
  | case3 text => exact h text (by simp [Hir.literals])
  | case4 => simp [maxLen]
  | case5 => exact le_rfl
  | case6 => exact min_le_right _ _
  | case7 sub ih => exact ih (by rwa [literals] at h)
  | case8 => exact min_le_right _ _
  | case9 subs ih =>
    rw [literals] at h
    cases hm : (subs.map Hir.maxLength).max? with
    | none => exact Nat.zero_le _
    | some n =>
      obtain ⟨sub, hsub, rfl⟩ := mem_map.1 (max?_mem hm)
      exact ih sub hsub fun s hs => h s (mem_flatMap_of_mem hsub hs)

lemma length_le_encode (s : Text) : s.length ≤ (Utf8.encode s).length := by
  induction s with
  | nil => exact le_rfl
  | cons c s ih =>
    have hc : 0 < (Utf8.encodeChar c).length := by
      simp only [Utf8.encodeChar]
      split_ifs <;> simp
    rw [Utf8.encode, flatMap_cons, length_append, length_cons]
    rw [Utf8.encode] at ih
    omega

lemma le_foldl_saturate (l : List ℕ) (n : ℕ) :
    min (n + l.sum) maxLen ≤ l.foldl (fun n m => saturate (n + m)) n := by
  induction l generalizing n with
  | nil => simp
  | cons m l ih =>
    refine le_trans ?_ (ih _)
    simp only [sum_cons, saturate, maxLen]
    omega

lemma HirMatches.length_le {text : Text} {hs : List Hir} {i j : ℕ} (h : HirMatches text hs i j) :
    min (j - i) maxLen ≤ (hs.map Hir.maxLength).sum := by
  induction h with
  | nil => simp
  | empty _ ih | look _ _ ih | capture _ ih => simpa [Hir.maxLength] using ih
  | @literal s _ _ _ _ _ ih =>
    have hle := length_le_encode s
    simp only [map_cons, sum_cons, Hir.maxLength]
    omega
  | cls _ _ _ ih =>
    simp only [map_cons, sum_cons, Hir.maxLength]
    omega
  | @rep _ n hi h _ _ _ _ hn _ ih =>
    simp only [map_append, sum_append, map_replicate, sum_replicate_nat] at ih
    simp only [map_cons, sum_cons]
    cases hi with
    | none => simp [Hir.maxLength]
    | some m =>
      have hle := Nat.mul_le_mul_right h.maxLength (hn m rfl)
      simp only [Hir.maxLength, saturate, maxLen] at ih ⊢
      omega
  | @concat subs _ _ _ _ ih =>
    have hle := le_foldl_saturate (subs.map Hir.maxLength) 0
    simp only [map_append, sum_append] at ih
    simp only [map_cons, sum_cons, Hir.maxLength]
    omega
  | @alternation h subs _ _ _ hmem _ ih =>
    have hle := le_max?_getD_of_mem (k := 0) (mem_map_of_mem (f := Hir.maxLength) hmem)
    simp only [map_cons, sum_cons, Hir.maxLength] at ih ⊢
    omega

/-! ## The cache -/

/-- Each bound is that of its own pattern. -/
def Honest (parse : Text → Option Hir) (cache : Map Text ℕ) : Prop :=
  ∀ p n, cache.lookup p = some n → ∃ hir, parse p = some hir ∧ hir.maxLength = n

lemma Honest.build {parse : Text → Option Hir} {cache : Map Text ℕ} (h : Honest parse cache)
    (p : Text) : Honest parse (build parse cache p).2 ∧
      ∀ n, (build parse cache p).1 = some n → ∃ hir, parse p = some hir ∧ hir.maxLength = n := by
  rw [Output.build]
  split
  · next hp => exact ⟨h, fun n hn => h p n (hp.trans hn)⟩
  · split
    · exact ⟨h, by simp⟩
    · next hir hp =>
      refine ⟨fun q n hq => ?_, fun n hn => ⟨hir, hp, Option.some_inj.1 hn⟩⟩
      rw [Map.lookup_insert_ite] at hq
      split_ifs at hq with hqp hfull
      · exact ⟨hir, hqp ▸ hp, Option.some_inj.1 hq⟩
      · cases hq
      · exact h q n hq

/-- The cache after a sequence of admissions and rejections. -/
def cacheAfter (parse : Text → Option Hir) (patterns : List Text) : Map Text ℕ :=
  patterns.foldl (fun cache p => (build parse cache p).2) ∅

lemma honest_cacheAfter (parse : Text → Option Hir) (patterns : List Text) :
    Honest parse (cacheAfter parse patterns) := by
  refine foldlRecOn patterns _ (by simp [Honest]) fun cache h p _ => ?_
  exact (h.build p).1

/-- **The bounds are sound**: no match is longer, unless the bound is `2 ^ 30`. -/
theorem stop_regex_bounds_sound :
    (∀ tree text i j, Matches text (.seq tree) i j →
      j - i ≤ maxLengthFromSubpattern tree ∨ maxLen ≤ maxLengthFromSubpattern tree) ∧
    ∀ parse, LiteralsWritten parse → ∀ earlier p n,
      (normalizeStopRegex parse (cacheAfter parse earlier) p).1 = some n →
        ∃ hir, parse p = some hir ∧
          ∀ text i j, HirMatches text [hir] i j → j - i ≤ n ∨ n = maxLen := by
  refine ⟨fun tree text i j h => h.length_le, fun parse hlit earlier p n hn => ?_⟩
  rw [normalizeStopRegex] at hn
  split_ifs at hn with hlong
  obtain ⟨hir, hp, rfl⟩ := ((honest_cacheAfter parse earlier).build p).2 n hn
  refine ⟨hir, hp, fun text i j h => ?_⟩
  have hle := h.length_le
  rw [map_singleton, sum_singleton] at hle
  have hmax : hir.maxLength ≤ maxLen := by
    refine Hir.maxLength_le fun s hs => (hlit p hir hp s hs).trans ?_
    simp only [maxStopRegexLen, maxLen] at hlong ⊢
    omega
  omega

/-- A parser that takes every pattern as a literal; the second pattern is answered from the cache
of the first. -/
theorem stop_regex_bounds_sound_of_literal :
    ∃ hir, some (Hir.literal ['a', 'b']) = some hir ∧
      ∀ text i j, HirMatches text [hir] i j → j - i ≤ 2 ∨ 2 = maxLen := by
  refine stop_regex_bounds_sound.2 (fun p => some (.literal p)) ?_ [['a', 'b']] ['a', 'b'] 2 ?_
  · rintro p _ ⟨⟩ s hs
    rw [Hir.literals, mem_singleton] at hs
    rw [hs]
  · simp [normalizeStopRegex, maxStopRegexLen, cacheAfter, build, Hir.maxLength, Utf8.encode,
      Utf8.encodeChar]
    rfl

end Sglang.Output
