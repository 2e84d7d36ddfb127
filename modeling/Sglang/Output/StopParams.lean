import Sglang.Output.Request
import Sglang.Lib.Maps
import Sglang.Lib.Utf8

/-!
# Stop strings and regexes as a request sets them

`SamplingParams.normalize` counts how far a stop may reach back: for a stop string the tokens of its
encoding, for a stop regex a bound on the characters of a match, read off the parse tree of the
pattern (`maxLengthFromSubpattern`).  A construct that the bound does not know counts as
`MAX_LEN = 2 ^ 30`.

What a match of a parse tree is, is said by `Matches`.  It depends on the text around the match only
through the character before it and the text from there on (`Matches.shift`), and it is no longer
than the bound (`Matches.length_le`).
-/

namespace Sglang.Output
open List

/-! ## Parse trees -/

/-- A node of the tree that `sre_parse.parse` gives.  `char` stands for `LITERAL`, `IN` and `ANY`,
`rep` for `MAX_REPEAT` and `MIN_REPEAT`, `anchor` for `AT`, and `other` for everything else. -/
inductive Node
  | char (accepts : Char → Bool)
  | subpattern (items : List Node)
  | branch (branches : List (List Node))
  | rep (minRepeat : ℕ) (maxRepeat : Option ℕ) (items : List Node)
  | anchor (holds : Option Char → Text → Bool)
  | other (matched : Text → ℕ → ℕ → Prop)

/-- `MAX_LEN`. -/
def maxLen : ℕ := 2 ^ 30

mutual

def Node.maxLength : Node → ℕ
  | .char _ => 1
  | .subpattern items => maxLengthFromSubpattern items
  | .branch branches => maxLengthOfBranches branches
  | .rep _ none _ => maxLen
  | .rep _ (some n) items => n * maxLengthFromSubpattern items
  | .anchor _ => 0
  | .other _ => maxLen

/-- `_max_length_from_subpattern`. -/
def maxLengthFromSubpattern : List Node → ℕ
  | [] => 0
  | node :: nodes => node.maxLength + maxLengthFromSubpattern nodes

/-- `max(... for branch in branches)`. -/
def maxLengthOfBranches : List (List Node) → ℕ
  | [] => 0
  | branch :: branches => max (maxLengthFromSubpattern branch) (maxLengthOfBranches branches)

end

/-- What is to be matched: a sequence of nodes, one node, or a sequence so many times. -/
inductive Goal
  | seq (items : List Node)
  | one (node : Node)
  | times (n : ℕ) (items : List Node)

def Goal.maxLength : Goal → ℕ
  | .seq items => maxLengthFromSubpattern items
  | .one node => node.maxLength
  | .times n items => n * maxLengthFromSubpattern items

/-- The goal matches the text from position `i` to position `j`. -/
inductive Matches (text : Text) : Goal → ℕ → ℕ → Prop
  | nil {i : ℕ} : i ≤ text.length → Matches text (.seq []) i i
  | cons {node : Node} {nodes : List Node} {i k j : ℕ} : Matches text (.one node) i k →
      Matches text (.seq nodes) k j → Matches text (.seq (node :: nodes)) i j
  | char {accepts : Char → Bool} {i : ℕ} {c : Char} : text[i]? = some c → accepts c = true →
      Matches text (.one (.char accepts)) i (i + 1)
  | subpattern {items : List Node} {i j : ℕ} : Matches text (.seq items) i j →
      Matches text (.one (.subpattern items)) i j
  | branch {branches : List (List Node)} {items : List Node} {i j : ℕ} : items ∈ branches →
      Matches text (.seq items) i j → Matches text (.one (.branch branches)) i j
  | rep {lo n : ℕ} {hi : Option ℕ} {items : List Node} {i j : ℕ} : lo ≤ n → (∀ m ∈ hi, n ≤ m) →
      Matches text (.times n items) i j → Matches text (.one (.rep lo hi items)) i j
  | zero {items : List Node} {i : ℕ} : i ≤ text.length → Matches text (.times 0 items) i i
  | succ {items : List Node} {n i k j : ℕ} : Matches text (.seq items) i k →
      Matches text (.times n items) k j → Matches text (.times (n + 1) items) i j
  | anchor {holds : Option Char → Text → Bool} {i : ℕ} : i ≤ text.length →
      holds (text.take i).getLast? (text.drop i) = true → Matches text (.one (.anchor holds)) i i
  | other {matched : Text → ℕ → ℕ → Prop} {i j : ℕ} : i ≤ j → j ≤ text.length →
      matched text i j → Matches text (.one (.other matched)) i j

/-! ## The bound -/

section
variable {text A A' S : Text} {g : Goal} {i j : ℕ}

lemma maxLengthFromSubpattern_le_of_mem {items : List Node} {branches : List (List Node)}
    (h : items ∈ branches) : maxLengthFromSubpattern items ≤ maxLengthOfBranches branches := by
  induction branches with
  | nil => exact absurd h not_mem_nil
  | cons b bs ih =>
    grind [maxLengthOfBranches]

lemma Matches.le (h : Matches text g i j) : i ≤ j ∧ j ≤ text.length := by
  induction h with
  | nil h => exact ⟨le_rfl, h⟩
  | cons _ _ ih1 ih2 => exact ⟨ih1.1.trans ih2.1, ih2.2⟩
  | char h _ => exact ⟨Nat.le_succ _, (List.getElem?_eq_some_iff.1 h).1⟩
  | subpattern _ ih => exact ih
  | branch _ _ ih => exact ih
  | rep _ _ _ ih => exact ih
  | zero h => exact ⟨le_rfl, h⟩
  | succ _ _ ih1 ih2 => exact ⟨ih1.1.trans ih2.1, ih2.2⟩
  | anchor h _ => exact ⟨le_rfl, h⟩
  | other h1 h2 _ => exact ⟨h1, h2⟩

/-- The bounds of the parts are below `MAX_LEN` if that of the whole is. -/
lemma rep_maxLength {lo n : ℕ} {hi : Option ℕ} {items : List Node} (hn : ∀ m ∈ hi, n ≤ m)
    (hb : (Node.rep lo hi items).maxLength < maxLen) :
    n * maxLengthFromSubpattern items ≤ (Node.rep lo hi items).maxLength := by
  cases hi with
  | none => exact absurd hb (lt_irrefl _)
  | some m => exact Nat.mul_le_mul_right _ (hn m rfl)

/-- **A match is no longer than the bound**, if that is below `MAX_LEN`. -/
theorem Matches.length_le (h : Matches text g i j) :
    j - i ≤ g.maxLength ∨ maxLen ≤ g.maxLength := by
  induction h with
  | nil | zero | anchor => exact .inl (by omega)
  | char => exact .inl (by simp [Goal.maxLength, Node.maxLength])
  | other => exact .inr le_rfl
  | subpattern _ ih => exact ih
  | cons _ _ ih1 ih2 =>
    simp only [Goal.maxLength, maxLengthFromSubpattern] at ih1 ih2 ⊢
    omega
  | branch hmem _ ih =>
    have hle := maxLengthFromSubpattern_le_of_mem hmem
    simp only [Goal.maxLength, Node.maxLength] at ih ⊢
    omega
  | @rep _ n hi items _ _ _ hn _ ih =>
    cases hi with
    | none => exact .inr le_rfl
    | some m =>
      have hle := Nat.mul_le_mul_right (maxLengthFromSubpattern items) (hn m rfl)
      simp only [Goal.maxLength, Node.maxLength] at ih ⊢
      omega
  | succ _ _ ih1 ih2 =>
    simp only [Goal.maxLength, Nat.succ_mul] at ih1 ih2 ⊢
    omega

/-- **A match may be moved to another text that goes on in the same way**, if the character before
it moves along. -/
theorem Matches.shift (h : Matches (A ++ S) g i j) (hb : g.maxLength < maxLen) {a : ℕ}
    (hi : i = A.length + a) (ha : 1 ≤ a) : ∃ b, j = A.length + b ∧ a ≤ b ∧
      Matches (A' ++ S) g (A'.length + a) (A'.length + b) := by
  have hlen : ∀ {k}, A.length + k ≤ (A ++ S).length → A'.length + k ≤ (A' ++ S).length := by
    simp
  induction h generalizing a with
  | nil h =>
    subst hi
    exact ⟨a, rfl, le_rfl, .nil (hlen h)⟩
  | cons _ _ ih1 ih2 =>
    simp only [Goal.maxLength, maxLengthFromSubpattern] at hb ih1 ih2
    obtain ⟨k, hk, hak, m1⟩ := ih1 (by omega) hi ha
    obtain ⟨b, hj, hkb, m2⟩ := ih2 (by omega) hk (by omega)
    exact ⟨b, hj, hak.trans hkb, .cons m1 m2⟩
  | char h hc =>
    subst hi
    rw [getElem?_append_right (by omega), Nat.add_sub_cancel_left] at h
    refine ⟨a + 1, rfl, Nat.le_succ a, .char ?_ hc⟩
    rw [getElem?_append_right (by omega), Nat.add_sub_cancel_left]
    exact h
  | subpattern _ ih =>
    obtain ⟨b, hj, hab, m⟩ := ih hb hi ha
    exact ⟨b, hj, hab, .subpattern m⟩
  | branch hmem _ ih =>
    have hle := maxLengthFromSubpattern_le_of_mem hmem
    simp only [Goal.maxLength, Node.maxLength] at hb ih
    obtain ⟨b, hj, hab, m⟩ := ih (by omega) hi ha
    exact ⟨b, hj, hab, .branch hmem m⟩
  | rep hlo hn _ ih =>
    have hle := rep_maxLength hn hb
    simp only [Goal.maxLength] at hb ih
    obtain ⟨b, hj, hab, m⟩ := ih (by omega) hi ha
    exact ⟨b, hj, hab, .rep hlo hn m⟩
  | zero h =>
    subst hi
    exact ⟨a, rfl, le_rfl, .zero (hlen h)⟩
  | succ _ _ ih1 ih2 =>
    simp only [Goal.maxLength, Nat.succ_mul] at hb ih1 ih2
    obtain ⟨k, hk, hak, m1⟩ := ih1 (by omega) hi ha
    obtain ⟨b, hj, hkb, m2⟩ := ih2 (by omega) hk (by omega)
    exact ⟨b, hj, hak.trans hkb, .succ m1 m2⟩
  | anchor h hp =>
    subst hi
    refine ⟨a, rfl, le_rfl, .anchor (hlen h) ?_⟩
    simp only [length_append] at h
    have hne : S.take a ≠ [] := ne_nil_of_length_pos (by rw [length_take]; omega)
    rw [take_length_add_append, drop_length_add_append, getLast?_append_of_ne_nil _ hne] at hp ⊢
    exact hp
  | other _ _ _ => exact absurd hb (lt_irrefl _)

end

end Sglang.Output
