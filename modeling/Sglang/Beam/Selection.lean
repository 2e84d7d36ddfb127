import Mathlib.Tactic
import Sglang.Lib.Runs

/-!
# Joint selection

`beam_search/joint_select.py`: the best candidates over all rows, split into survivors and finished
ones by ranks that are cumulative sums, and written to fixed places.  Tensors over the candidates
are lists, and the three tensors of a result with the same places are one list.

`walk` says what the ranks are for: go through the candidates, best first, until there are `k`
survivors.
-/

namespace Sglang.Beam
open List

variable {K : Type}

/-- An extension of the row `parent`. -/
structure Cand (K : Type) where
  score : K
  parent : ℕ
  token : ℕ
  deriving DecidableEq

/-- `a` is at least as good as `b`. -/
def Cand.ge [LE K] (a b : Cand K) : Prop := b.score ≤ a.score

instance [LE K] [DecidableLE K] : DecidableRel (@Cand.ge K _) := fun a b =>
  inferInstanceAs (Decidable (b.score ≤ a.score))

instance [LinearOrder K] : Std.Total (@Cand.ge K _) := ⟨fun a b => le_total b.score a.score⟩

instance [LinearOrder K] : IsTrans (Cand K) Cand.ge := ⟨fun _ _ _ h h' => le_trans h' h⟩

/-- The extensions of all rows; `tops` has the log-probabilities and the tokens that they offer. -/
def extensions [Add K] (cums : List K) (tops : List (List (K × ℕ))) : List (Cand K) :=
  ((cums.zip tops).zipIdx.map fun ((cum, top), r) =>
    top.map fun (logprob, token) => ⟨cum + logprob, r, token⟩).flatten

/-- `_ranked_candidates` -/
def rankedCandidates [LE K] [DecidableLE K] [Add K] (cums : List K)
    (tops : List (List (K × ℕ))) (numOut : ℕ) : List (Cand K) :=
  ((extensions cums tops).insertionSort Cand.ge).take numOut

/-- `cumsum`, from a given sum on. -/
def cumsum (a : ℕ) : List ℕ → List ℕ
  | [] => []
  | x :: l => (a + x) :: cumsum (a + x) l

/-- The loop of `scatter_`. -/
def scatter {α : Type} (buf : List α) : List ℕ → List α → List α
  | [], _ => buf
  | _ :: _, [] => buf
  | slot :: slots, x :: src => scatter (buf.set slot x) slots src

/-- `_scatter_fixed` -/
def scatterFixed {α : Type} (zero : α) (src : List α) (slots : List ℕ) (size : ℕ) : List α :=
  (scatter (replicate (size + 1) zero) slots src).take size

structure SelectResult (K : Type) where
  /-- `next_tokens`, `parent_idx` and `new_cum_logprobs` -/
  survivors : List (Cand K)
  numSurvivors : ℕ
  finished : List (Cand K)
  numFinished : ℕ

/-! The vectors of `joint_select`, also from the middle of the candidates on: `a` that do not stop
and `f` finished ones came before. -/

section
variable (stop : ℕ → Bool) (k n a f : ℕ) (cands : List (Cand K))

def nonStop : List ℕ := cands.map fun c => (!stop c.token).toNat

def nonStopRank : List ℕ := cumsum a (nonStop stop cands)

def survivor : List Bool :=
  zipWith (fun b r => b = 1 && decide (r ≤ k)) (nonStop stop cands) (nonStopRank stop a cands)

/-- Examined while fewer than `k` survivors precede. -/
def finished : List Bool :=
  zipWith (fun b r => b = 0 && decide (r - b < k)) (nonStop stop cands)
    (nonStopRank stop a cands)

def survSlot : List ℕ :=
  zipWith (fun b r => if b then r - 1 else k) (survivor stop k a cands)
    (nonStopRank stop a cands)

def finSlot : List ℕ :=
  zipWith (fun b r => if b then r - 1 else n) (finished stop k a cands)
    (cumsum f ((finished stop k a cands).map Bool.toNat))

end

/-- `joint_select` after the ranking. -/
def splitCandidates [Zero K] (cands : List (Cand K)) (stop : ℕ → Bool) (k numCandidates : ℕ) :
    SelectResult K where
  survivors := scatterFixed ⟨0, 0, 0⟩ cands (survSlot stop k 0 cands) k
  numSurvivors := ((survivor stop k 0 cands).map Bool.toNat).sum
  finished := scatterFixed ⟨0, 0, 0⟩ cands (finSlot stop k numCandidates 0 0 cands) numCandidates
  numFinished := ((finished stop k 0 cands).map Bool.toNat).sum

/-- `joint_select` -/
def jointSelect [LE K] [DecidableLE K] [Zero K] [Add K] (cums : List K)
    (tops : List (List (K × ℕ))) (stop : ℕ → Bool) (k numCandidates : ℕ) : SelectResult K :=
  splitCandidates (rankedCandidates cums tops numCandidates) stop k numCandidates

/-! ## The walk -/

/-- The survivors and the finished ones, until there are `n` survivors. -/
def walk (stop : ℕ → Bool) : ℕ → List (Cand K) → List (Cand K) × List (Cand K)
  | 0, _ => ([], [])
  | _ + 1, [] => ([], [])
  | n + 1, c :: cs =>
    if stop c.token then ((walk stop (n + 1) cs).1, c :: (walk stop (n + 1) cs).2)
    else (c :: (walk stop n cs).1, (walk stop n cs).2)

variable {stop : ℕ → Bool} {k n : ℕ} {z : Cand K}

/-! A buffer is what is in place, what is free, and the dump slot. -/

variable {pre : List (Cand K)} {m : ℕ}

lemma set_dump (h : pre.length + m = n) (c d : Cand K) :
    (pre ++ replicate m z ++ [d]).set n c = pre ++ replicate m z ++ [c] := by
  rw [set_append_right _ _ (by simp; omega)]
  simp [h]

lemma set_next (pre : List (Cand K)) (c d : Cand K) :
    (pre ++ replicate (m + 1) z ++ [d]).set pre.length c = pre ++ [c] ++ replicate m z ++ [d] := by
  simp [replicate_succ]

lemma take_buffer (h : pre.length + m = n) (d : Cand K) :
    (pre ++ replicate m z ++ [d]).take n = pre ++ replicate m z :=
  take_left' (by simpa using h)

lemma walk_nil (m : ℕ) : walk (K := K) stop m [] = ([], []) := by cases m <;> rfl

variable {a f : ℕ} {c : Cand K} {l : List (Cand K)}

/-- A stop token takes no place among the survivors and does not count for their ranks. -/
lemma vectors_cons_stop (h : stop c.token = true) :
    survivor stop k a (c :: l) = false :: survivor stop k a l ∧
      survSlot stop k a (c :: l) = k :: survSlot stop k a l ∧
      finished stop k a (c :: l) = decide (a < k) :: finished stop k a l ∧
      finSlot stop k n a f (c :: l) = (if a < k then f else n) ::
        finSlot stop k n a (if a < k then f + 1 else f) l := by
  by_cases ha : a < k <;>
    simp [survivor, survSlot, finished, finSlot, nonStopRank, nonStop, cumsum, h, ha]

/-- Any other candidate is a survivor while there are fewer than `k`, and counts either way. -/
lemma vectors_cons_go (h : stop c.token = false) :
    survivor stop k a (c :: l) = decide (a < k) :: survivor stop k (a + 1) l ∧
      survSlot stop k a (c :: l) = (if a < k then a else k) :: survSlot stop k (a + 1) l ∧
      finished stop k a (c :: l) = false :: finished stop k (a + 1) l ∧
      finSlot stop k n a f (c :: l) = n :: finSlot stop k n (a + 1) f l := by
  simp [survivor, survSlot, finished, finSlot, nonStopRank, nonStop, cumsum, h, Nat.add_one_le_iff]

/-- Scattering by rank writes the survivors in order; what is past the `k`-th goes to the dump
place. -/
lemma scatter_survSlot (stop : ℕ → Bool) : ∀ (cands pre : List (Cand K)) (a : ℕ) (d : Cand K),
    pre.length = min a k →
    (scatter (pre ++ replicate (k - a) z ++ [d]) (survSlot stop k a cands) cands).take k =
        pre ++ (walk stop (k - a) cands).1 ++
          replicate (k - a - (walk stop (k - a) cands).1.length) z ∧
      ((survivor stop k a cands).map Bool.toNat).sum = (walk stop (k - a) cands).1.length
  | [], pre, a, d, h => by
    rw [walk_nil]
    refine ⟨?_, rfl⟩
    rw [append_nil]
    exact take_buffer (by omega) d
  | c :: cs, pre, a, d, h => by
    have hdump := set_dump (z := z) (show pre.length + (k - a) = k by omega) c d
    cases hc : stop c.token with
    | true =>
      obtain ⟨hm, hs, -⟩ := vectors_cons_stop (l := cs) (n := 0) (f := 0) hc
      have ih := scatter_survSlot stop cs pre a c h
      rw [hm, hs, scatter, hdump]
      cases hk : k - a <;> simp_all [walk]
    | false =>
      obtain ⟨hm, hs, -⟩ := vectors_cons_go (n := 0) (f := 0) hc
      rw [hm, hs, scatter]
      by_cases ha : a < k
      · obtain ⟨m, hm⟩ : ∃ m, k - a = m + 1 := ⟨k - a - 1, by omega⟩
        have ih := scatter_survSlot stop cs (pre ++ [c]) (a + 1) d (by simp; omega)
        have hp : pre.length = a := by omega
        have hm' : k - (a + 1) = m := by omega
        have hnext := set_next (z := z) (m := m) pre c d
        simp_all [walk]
        omega
      · have ih := scatter_survSlot stop cs pre (a + 1) c (by omega)
        have hk' : k - (a + 1) = 0 := by omega
        rw [if_neg ha, hdump]
        simp_all [walk]

/-- Scattering by rank writes the finished candidates in order. -/
lemma scatter_finSlot (stop : ℕ → Bool) : ∀ (cands pre : List (Cand K)) (a : ℕ) (d : Cand K),
    pre.length + cands.length ≤ n →
    (scatter (pre ++ replicate (n - pre.length) z ++ [d])
        (finSlot stop k n a pre.length cands) cands).take n =
        pre ++ (walk stop (k - a) cands).2 ++
          replicate (n - pre.length - (walk stop (k - a) cands).2.length) z ∧
      ((finished stop k a cands).map Bool.toNat).sum = (walk stop (k - a) cands).2.length
  | [], pre, a, d, h => by
    rw [walk_nil]
    refine ⟨?_, rfl⟩
    rw [append_nil]
    exact take_buffer (Nat.add_sub_cancel' h) d
  | c :: cs, pre, a, d, h => by
    rw [length_cons] at h
    have hdump := set_dump (z := z) (show pre.length + (n - pre.length) = n by omega) c d
    cases hc : stop c.token with
    | false =>
      obtain ⟨-, -, hm, hs⟩ := vectors_cons_go
        hc
      have ih := scatter_finSlot stop cs pre (a + 1) c (by omega)
      rw [hm, hs, scatter, hdump]
      cases hk : k - a with
      | zero =>
        have hk' : k - (a + 1) = 0 := by omega
        simp_all [walk]
      | succ m =>
        have hk' : k - (a + 1) = m := by omega
        simp_all [walk]
    | true =>
      obtain ⟨-, -, hm, hs⟩ := vectors_cons_stop (n := n)
        (f := pre.length) hc
      rw [hm, hs, scatter]
      by_cases ha : a < k
      · obtain ⟨m, hk⟩ : ∃ m, k - a = m + 1 := ⟨k - a - 1, by omega⟩
        obtain ⟨q, hq⟩ : ∃ q, n - pre.length = q + 1 := ⟨n - pre.length - 1, by omega⟩
        have ih := scatter_finSlot stop cs (pre ++ [c]) a d (by simp; omega)
        have hq' : n - (pre.length + 1) = q := by omega
        have hnext := set_next (z := z) (m := q) pre c d
        simp_all [walk]
        omega
      · have ih := scatter_finSlot stop cs pre a c (by omega)
        rw [if_neg ha, if_neg ha, hdump]
        simp_all [walk]

variable {cands : List (Cand K)}

/-- **The ranks are a walk**: what is read of the result is what the walk finds. -/
theorem splitCandidates_eq_walk [Zero K] (stop : ℕ → Bool) (h : cands.length ≤ n) :
    let r := splitCandidates cands stop k n
    r.survivors.take r.numSurvivors = (walk stop k cands).1 ∧
      r.finished.take r.numFinished = (walk stop k cands).2 ∧
      r.numSurvivors = (walk stop k cands).1.length := by
  have hs := scatter_survSlot (k := k) (z := ⟨0, 0, 0⟩) stop cands [] 0 ⟨0, 0, 0⟩ (by simp)
  have hf := scatter_finSlot (k := k) (z := ⟨0, 0, 0⟩) stop cands [] 0 ⟨0, 0, 0⟩
    (by simpa using h)
  simp only [nil_append, Nat.sub_zero, length_nil, ← replicate_succ'] at hs hf
  simp only [splitCandidates, scatterFixed]
  exact ⟨by rw [hs.1, hs.2, take_left], by rw [hf.1, hf.2, take_left], hs.2⟩

lemma length_walk_le (stop : ℕ → Bool) : ∀ (n : ℕ) (cs : List (Cand K)),
    (walk stop n cs).1.length ≤ n
  | 0, _ => by simp [walk]
  | _ + 1, [] => by simp [walk]
  | n + 1, c :: cs => by
    have := length_walk_le stop (n + 1) cs
    have := length_walk_le stop n cs
    grind [walk]

lemma length_scatter {α : Type} : ∀ (slots : List ℕ) (src buf : List α),
    (scatter buf slots src).length = buf.length
  | [], _, _ => by simp [scatter]
  | _ :: _, [], _ => by simp [scatter]
  | slot :: slots, x :: src, buf => by simp [scatter, length_scatter slots src]

/-- If the walk finds `k` survivors, they are those of the ranks. -/
lemma survivors_eq_walk [Zero K] (h : cands.length ≤ n) (hk : k ≤ (walk stop k cands).1.length) :
    (splitCandidates cands stop k n).survivors = (walk stop k cands).1 := by
  obtain ⟨hs, -, hnum⟩ := splitCandidates_eq_walk stop h
  have hl : (splitCandidates cands stop k n).survivors.length = k := by
    simp [splitCandidates, scatterFixed, length_scatter]
  rwa [take_of_length_le (by rw [hl, hnum]; exact hk)] at hs

/-- The walk sees the best candidates, at least `n` of them. -/
lemma walk_perm (stop : ℕ → Bool) : ∀ (n : ℕ) (cs : List (Cand K)), ∃ j,
    ((walk stop n cs).2 ++ (walk stop n cs).1).Perm (cs.take j) ∧ (n ≤ j ∨ cs.length ≤ j)
  | 0, cs => ⟨0, by simp [walk]⟩
  | n + 1, [] => ⟨0, by simp [walk]⟩
  | n + 1, c :: cs => by
    cases hc : stop c.token with
    | true =>
      obtain ⟨j, hp, hj⟩ := walk_perm stop (n + 1) cs
      exact ⟨j + 1, by simpa [walk, hc] using hp, by simp; omega⟩
    | false =>
      obtain ⟨j, hp, hj⟩ := walk_perm stop n cs
      refine ⟨j + 1, ?_, by simp; omega⟩
      simpa [walk, hc] using perm_middle.trans (hp.cons c)

lemma mem_of_mem_walk {cs : List (Cand K)} (h : c ∈ (walk stop k cs).2 ∨ c ∈ (walk stop k cs).1) :
    c ∈ cs := by
  obtain ⟨j, hp, -⟩ := walk_perm stop k cs
  exact mem_of_mem_take (hp.mem_iff.1 (mem_append.2 h))

/-- Every candidate extends one of the rows. -/
lemma parent_lt_of_mem_extensions [Add K] {cums : List K} {tops : List (List (K × ℕ))}
    {c : Cand K} (h : c ∈ extensions cums tops) : c.parent < cums.length := by
  grind [extensions]

end Sglang.Beam
