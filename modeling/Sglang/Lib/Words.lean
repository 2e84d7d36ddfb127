import Mathlib.Tactic

/-!
# Words: slices, common beginnings and chunks

A word is compared with another from its start (`commonLen`), letter by letter or in chunks of
equal length (`chunks`, which leaves out an incomplete last one).  `commonLen_chunks` says that
comparing chunks is comparing letters, rounded down.  `Reaches` is the length of the longest
beginning whose letters all have a property.
-/

namespace Lib
open List

universe u v

variable {α : Type u} {β : Type v}

/-! ## Slices -/

/-- The slice `l[a:b]`. -/
def slice (l : List α) (a b : Nat) : List α := (l.take b).drop a

lemma length_slice (l : List α) (a b : Nat) : (slice l a b).length = min b l.length - a := by
  rw [slice, length_drop, length_take]

variable {l : List α} {a b i : Nat}

lemma getElem?_slice (hi : a + i < b) : (slice l a b)[i]? = l[a + i]? := by
  rw [slice, getElem?_drop, getElem?_take_of_lt hi]

lemma slice_eq_nil (h : b ≤ a) : slice l a b = [] :=
  drop_eq_nil_of_le (by rw [length_take]; omega)

lemma slice_one (ha : a < l.length) (d : α) : slice l a (a + 1) = [l.getD a d] := by
  rw [slice, drop_take, Nat.add_sub_cancel_left, drop_eq_getElem_cons ha,
    getD_eq_getElem?_getD, getElem?_eq_getElem ha]
  rfl

/-- Bounds past the end do not matter. -/
lemma slice_min (l : List α) (a b : Nat) :
    slice l (min a l.length) (min b l.length) = slice l a b := by
  rw [slice, slice, ← take_eq_take_min]
  rcases Nat.le_total a l.length with h | h
  · rw [min_eq_left h]
  · rw [min_eq_right h, drop_eq_nil_of_le (by rw [length_take]; omega),
      drop_eq_nil_of_le (by rw [length_take]; omega)]

lemma slice_map (f : α → β) (l : List α) (a b : Nat) :
    slice (l.map f) a b = (slice l a b).map f := by
  rw [slice, slice, ← map_take, map_drop]

lemma slice_eq_slice_iff {m : List α} {off : Nat} :
    slice l a b = slice m (off + a) (off + b) ↔ ∀ i, a ≤ i → i < b → l[i]? = m[off + i]? := by
  constructor
  · intro h i ha hb
    have hi := congrArg (fun s => s[i - a]?) h
    simp only [slice, getElem?_drop] at hi
    rwa [Nat.add_assoc off a, Nat.add_sub_cancel' ha, getElem?_take_of_lt hb,
      getElem?_take_of_lt (by omega)] at hi
  · intro h
    refine ext_getElem? fun j => ?_
    rw [slice, slice, getElem?_drop, getElem?_drop, Nat.add_assoc]
    rcases Nat.lt_or_ge (a + j) b with hj | hj
    · grind
    · grind

/-! ## Common beginnings -/

section
variable [DecidableEq α]

/-- How many letters two words have in common at their start. -/
def commonLen : List α → List α → Nat
  | a :: l, b :: m => if a = b then commonLen l m + 1 else 0
  | _, _ => 0

lemma le_commonLen_iff {k : Nat} : ∀ {l m : List α},
    k ≤ commonLen l m ↔ k ≤ l.length ∧ k ≤ m.length ∧ l.take k = m.take k
  | [], m => by
    constructor
    · intro h
      obtain rfl := Nat.le_zero.1 h
      exact ⟨le_refl 0, Nat.zero_le _, rfl⟩
    · exact fun h => h.1
  | _ :: _, [] => by
    constructor
    · intro h
      obtain rfl := Nat.le_zero.1 h
      exact ⟨Nat.zero_le _, le_refl 0, rfl⟩
    · exact fun h => h.2.1
  | a :: l, b :: m => by
    cases k with
    | zero => simp
    | succ k =>
      rw [commonLen, take_succ_cons, take_succ_cons, length_cons, length_cons, List.cons.injEq]
      by_cases hab : a = b
      · rw [if_pos hab, Nat.succ_le_succ_iff, le_commonLen_iff]
        simp [hab]
      · rw [if_neg hab]
        simp [hab]

lemma commonLen_le_left (l m : List α) : commonLen l m ≤ l.length :=
  (le_commonLen_iff.1 (le_refl _)).1

lemma commonLen_le_right (l m : List α) : commonLen l m ≤ m.length :=
  (le_commonLen_iff.1 (le_refl _)).2.1

lemma take_commonLen (l m : List α) : l.take (commonLen l m) = m.take (commonLen l m) :=
  (le_commonLen_iff.1 (le_refl _)).2.2

variable {l m : List α}

/-- The common beginning ends where the words do, or where they differ. -/
lemma commonLen_eq {k : Nat} (hl : k ≤ l.length) (hm : k ≤ m.length)
    (hsame : ∀ i < k, l[i]? = m[i]?) (hend : k < l.length → k < m.length → l[k]? ≠ m[k]?) :
    commonLen l m = k := by
  have htake : l.take k = m.take k := ext_getElem? fun i => by
    grind
  refine le_antisymm (Nat.le_of_not_lt fun hlt => ?_) (le_commonLen_iff.2 ⟨hl, hm, htake⟩)
  obtain ⟨hl', hm', htake'⟩ := le_commonLen_iff.1 hlt
  refine hend hl' hm' ?_
  have hk := congrArg (fun s => s[k]?) htake'
  simpa only [getElem?_take_of_lt (Nat.lt_succ_self k)] using hk

lemma getElem?_of_lt_commonLen {i : Nat} (hi : i < commonLen l m) : l[i]? = m[i]? := by
  have htake := congrArg (fun s => s[i]?) (take_commonLen l m)
  simpa only [getElem?_take_of_lt hi] using htake

lemma getElem?_commonLen_ne (hl : commonLen l m < l.length) (hm : commonLen l m < m.length) :
    l[commonLen l m]? ≠ m[commonLen l m]? := by
  intro heq
  refine absurd (le_commonLen_iff.2 ⟨hl, hm, ?_⟩) (Nat.not_succ_le_self _)
  rw [take_add_one, take_add_one, take_commonLen, heq]

lemma commonLen_map [DecidableEq β] {f : α → β} (hf : Function.Injective f) :
    ∀ l m, commonLen (l.map f) (m.map f) = commonLen l m
  | [], _ => rfl
  | _ :: _, [] => rfl
  | a :: l, b :: m => by
    rw [map_cons, map_cons, commonLen, commonLen, commonLen_map hf l m]
    simp [hf.eq_iff]

/-- What is left in common after letters in common. -/
lemma commonLen_drop : ∀ {n : Nat} {l m : List α}, n ≤ commonLen l m →
    n + commonLen (l.drop n) (m.drop n) = commonLen l m
  | 0, _, _, _ => Nat.zero_add _
  | n + 1, a :: l, b :: m, h => by
    rw [commonLen] at h ⊢
    split at h
    · rename_i hab
      rw [if_pos hab, drop_succ_cons, drop_succ_cons, Nat.add_right_comm,
        commonLen_drop (Nat.le_of_succ_le_succ h)]
    · omega

end

/-! ## Chunks -/

/-- The whole chunks of `n` letters. -/
def chunks (n : Nat) (l : List α) : List (List α) :=
  (range (l.length / n)).map fun i => (l.drop (i * n)).take n

lemma length_chunks (n : Nat) (l : List α) : (chunks n l).length = l.length / n := by
  rw [chunks, length_map, length_range]

variable {n : Nat}

lemma getElem?_chunks (hi : i < l.length / n) :
    (chunks n l)[i]? = some ((l.drop (i * n)).take n) := by
  rw [chunks, getElem?_map, getElem?_range hi, Option.map_some]

variable {k : Nat}

lemma chunks_take (hn : 0 < n) (l : List α) :
    chunks n (l.take (k * n)) = (chunks n l).take k := by
  have hlen : (l.take (k * n)).length / n = min k (l.length / n) := by
    grind [Nat.mul_div_cancel, Nat.le_div_iff_mul_le]
  rw [chunks, chunks, hlen, ← map_take, take_range]
  refine map_congr_left fun i hi => ?_
  have hi' : (i + 1) * n ≤ k * n :=
    Nat.mul_le_mul_right n (lt_of_lt_of_le (mem_range.1 hi) (min_le_left _ _))
  rw [Nat.succ_mul] at hi'
  rw [drop_take, take_take, min_eq_left (by omega)]

lemma chunks_drop (n k : Nat) (l : List α) : chunks n (l.drop (k * n)) = (chunks n l).drop k := by
  have hlen : (l.drop (k * n)).length / n = l.length / n - k := by
    rw [length_drop, Nat.mul_comm, Nat.sub_mul_div]
  refine ext_getElem? fun i => ?_
  rw [getElem?_drop]
  rcases Nat.lt_or_ge i (l.length / n - k) with hi | hi
  · rw [getElem?_chunks (by rwa [hlen]), getElem?_chunks (by omega), drop_drop, Nat.add_mul]
  · grind [length_chunks]

/-- **Comparing chunks is comparing letters, rounded down.** -/
theorem commonLen_chunks [DecidableEq α] (hn : 0 < n) (l m : List α) :
    commonLen (chunks n l) (chunks n m) = commonLen l m / n := by
  have hle : commonLen l m / n ≤ l.length / n := Nat.div_le_div_right (commonLen_le_left l m)
  have hle' : commonLen l m / n ≤ m.length / n := Nat.div_le_div_right (commonLen_le_right l m)
  refine commonLen_eq (by rwa [length_chunks]) (by rwa [length_chunks]) (fun i hi => ?_)
    fun hl hm heq => ?_
  · have hi' : i * n + n ≤ commonLen l m := by
      have := Nat.mul_le_mul_right n hi
      have := Nat.div_mul_le_self (commonLen l m) n
      rw [Nat.succ_mul] at *
      omega
    rw [getElem?_chunks (by omega), getElem?_chunks (by omega)]
    refine congrArg some (ext_getElem? fun j => ?_)
    rw [getElem?_take, getElem?_take]
    split
    · rw [getElem?_drop, getElem?_drop]
      exact getElem?_of_lt_commonLen (by omega)
    · rfl
  · rw [length_chunks] at hl hm
    rw [getElem?_chunks hl, getElem?_chunks hm, Option.some_inj] at heq
    -- Equal chunks would make the common beginning longer.
    have hmod := Nat.div_add_mod' (commonLen l m) n
    have hlt := Nat.mod_lt (commonLen l m) hn
    have hlen : commonLen l m / n * n + n ≤ l.length := by
      rw [← Nat.succ_mul]
      exact (Nat.mul_le_mul_right n hl).trans (Nat.div_mul_le_self _ _)
    have hlen' : commonLen l m / n * n + n ≤ m.length := by
      rw [← Nat.succ_mul]
      exact (Nat.mul_le_mul_right n hm).trans (Nat.div_mul_le_self _ _)
    refine getElem?_commonLen_ne (l := l) (m := m) (by omega) (by omega) ?_
    have hat := congrArg (fun s => s[commonLen l m % n]?) heq
    simpa only [getElem?_take_of_lt hlt, getElem?_drop, hmod] using hat

lemma chunks_append (hn : 0 < n) (hl : l.length = k * n) (m : List α) :
    chunks n (l ++ m) = chunks n l ++ chunks n m := by
  have hlk : (l ++ m).take (k * n) = l := by rw [← hl, take_left]
  have hmk : (l ++ m).drop (k * n) = m := by rw [← hl, drop_left]
  rw [← take_append_drop k (chunks n (l ++ m)), ← chunks_take hn, ← chunks_drop, hlk, hmk]

lemma flatten_chunks (hn : 0 < n) : ∀ {l : List α}, l.length = k * n →
    (chunks n l).flatten = l := by
  induction k with
  | zero =>
    intro l hl
    rw [Nat.zero_mul] at hl
    rw [length_eq_zero_iff.1 hl, chunks, length_nil, Nat.zero_div]
    rfl
  | succ k ih =>
    intro l hl
    rw [Nat.succ_mul] at hl
    have htake : (l.take n).length = 1 * n := by
      rw [length_take]
      omega
    have hone : chunks n (l.take n) = [l.take n] := by
      simp [chunks, htake, Nat.div_self hn]
    rw [← take_append_drop n l, chunks_append hn htake, flatten_append, hone,
      ih (by rw [length_drop]; omega)]
    simp

/-! ## The longest beginning with a property -/

/-- `m` is the length of the longest beginning of `l` all of whose letters satisfy `P`. -/
def Reaches (P : α → Prop) (l : List α) (m : Nat) : Prop :=
  IsGreatest {d | d ≤ l.length ∧ ∀ a ∈ l.take d, P a} m

lemma reaches_nil (P : α → Prop) : Reaches P [] 0 :=
  ⟨⟨le_rfl, fun _ ha => (by cases ha)⟩, fun _ hd => hd.1⟩

variable {P : α → Prop}

lemma reaches_of_not {a : α} (ha : ¬ P a) (l : List α) : Reaches P (a :: l) 0 := by
  refine ⟨⟨Nat.zero_le _, fun x hx => (by cases hx)⟩, fun d hd => ?_⟩
  cases d with
  | zero => exact le_rfl
  | succ d => exact absurd (hd.2 a (by rw [take_succ_cons]; exact mem_cons_self)) ha

lemma Reaches.cons {a : α} {m : Nat} (h : Reaches P l m) (ha : P a) :
    Reaches P (a :: l) (m + 1) := by
  obtain ⟨⟨hle, hall⟩, hmax⟩ := h
  refine ⟨⟨Nat.succ_le_succ hle, fun x hx => ?_⟩, fun d hd => ?_⟩
  · grind
  · cases d with
    | zero => exact Nat.zero_le _
    | succ d =>
      refine Nat.succ_le_succ (hmax ⟨Nat.le_of_succ_le_succ hd.1, fun x hx => hd.2 x ?_⟩)
      exact mem_cons_of_mem _ hx

end Lib
