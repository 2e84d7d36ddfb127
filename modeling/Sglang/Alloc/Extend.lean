import Mathlib.Data.List.GetD
import Sglang.Alloc.Pool

/-!
# Where the slots of a batch go

`extendSlots` says what an extend is for: every request first fills the page of its last slot and
then takes whole pages from the front of the free list, one request after the other.  Both
implementations compute it.

* `writes_allocExtendKernel` — the program of one request writes its own part of the output, so that
  the launch computes `extendSlots` in any order (`launch_allocExtendKernel`);
* `allocExtendNaive_eq` — so do the vector operations;
* `launch_allocDecodeKernel` — and the decode kernel, for one token a request.
-/

namespace Sglang.Alloc
open Lib List ExtendReq

/-! ## The slots of a batch -/

/-- The slot of position `p`, when the new pages of the request are the front of `free`. -/
def ExtendReq.slot (ps : Nat) (free : List Nat) (r : ExtendReq) (p : Nat) : Nat :=
  if p < pages ps r.prefixLen * ps then r.nextLoc + (p - r.prefixLen)
  else free.getD (p / ps - pages ps r.prefixLen) 0 * ps + p % ps

/-- The slots of the positions of one request. -/
def ExtendReq.slots (ps : Nat) (free : List Nat) (r : ExtendReq) : List Nat :=
  (range r.extendLen).map fun k => r.slot ps free (r.prefixLen + k)

/-- The slots of a batch. -/
def extendSlots (ps : Nat) : List Nat → List ExtendReq → List Nat
  | _, [] => []
  | free, r :: batch => r.slots ps free ++ extendSlots ps (free.drop (r.newPages ps)) batch

/-- Where the output of the `i`-th request starts. -/
def outStart (batch : List ExtendReq) (i : Nat) : Nat := ((batch.take i).map (·.extendLen)).sum

/-- How many pages the requests before the `i`-th one take. -/
def pageStart (ps : Nat) (batch : List ExtendReq) (i : Nat) : Nat :=
  ((batch.take i).map (·.newPages ps)).sum

/-- `extend_num_tokens`. -/
def numTokens (batch : List ExtendReq) : Nat := (batch.map (·.extendLen)).sum

variable {ps : Nat} {batch : List ExtendReq} {free : List Nat} {i k : Nat} {r : ExtendReq}

lemma length_slots (ps : Nat) (free : List Nat) (r : ExtendReq) :
    (r.slots ps free).length = r.extendLen := by
  rw [slots, length_map, length_range]

/-- A slot for each new token. -/
lemma length_extendSlots (ps : Nat) : ∀ (batch : List ExtendReq) (free : List Nat),
    (extendSlots ps free batch).length = numTokens batch
  | [], _ => rfl
  | r :: batch, free => by
    rw [extendSlots, length_append, length_slots, length_extendSlots ps batch, numTokens,
      numTokens, map_cons, sum_cons]

lemma outStart_succ (h : batch[i]? = some r) :
    outStart batch (i + 1) = outStart batch i + r.extendLen := by
  rw [outStart, take_add_one, h, map_append, sum_append, outStart]
  simp

lemma pageStart_succ (h : batch[i]? = some r) :
    pageStart ps batch (i + 1) = pageStart ps batch i + r.newPages ps := by
  rw [pageStart, take_add_one, h, map_append, sum_append, pageStart]
  simp

lemma outStart_length (batch : List ExtendReq) :
    outStart batch batch.length = numTokens batch := by
  rw [outStart, take_length, numTokens]

lemma pageStart_length (ps : Nat) (batch : List ExtendReq) :
    pageStart ps batch batch.length = getNumNewPages ps batch := by
  rw [pageStart, take_length, getNumNewPages]

lemma getD_drop (l : List Nat) (n k : Nat) : (l.drop n).getD k 0 = l.getD (n + k) 0 := by
  rw [getD_eq_getElem?_getD, getElem?_drop, getD_eq_getElem?_getD]

/-- **The output of one request** is where its start says, from the pages after those of the
requests before it. -/
theorem getD_extendSlots (ps : Nat) : ∀ {batch} {i : Nat} (free : List Nat),
    batch[i]? = some r → k < r.extendLen →
    (extendSlots ps free batch).getD (outStart batch i + k) 0 =
      r.slot ps (free.drop (pageStart ps batch i)) (r.prefixLen + k)
  | [], _, _, h, _ => absurd h (by simp)
  | r' :: batch, 0, free, h, hk => by
    rw [getElem?_cons_zero, Option.some_inj] at h
    subst h
    have hlt : k < (r'.slots ps free).length := by rwa [length_slots]
    have hstart : outStart (r' :: batch) 0 + k = k := zero_add k
    rw [extendSlots, hstart, getD_append _ _ _ _ hlt, slots,
      getD_eq_getElem _ _ (by rwa [length_map, length_range]), getElem_map, getElem_range]
    rfl
  | r' :: batch, i + 1, free, h, hk => by
    rw [getElem?_cons_succ] at h
    have hstart : outStart (r' :: batch) (i + 1) + k = r'.extendLen + (outStart batch i + k) := by
      rw [outStart, take_succ_cons, map_cons, sum_cons, add_assoc, outStart]
    rw [extendSlots, hstart, getD_append_right _ _ _ _ (by rw [length_slots]; omega),
      length_slots, Nat.add_sub_cancel_left, getD_extendSlots ps _ h hk, drop_drop, pageStart,
      pageStart, take_succ_cons, map_cons, sum_cons]

/-! ## The three parts of an extend -/

/-- The slots on a page that the request already has continue its last slot. -/
lemma slot_old {p : Nat} (h : p < pages ps r.prefixLen * ps) :
    r.slot ps free p = r.nextLoc + (p - r.prefixLen) := if_pos h

variable {o : Nat}

/-- The slots on new pages are those of the free pages, in order. -/
lemma slot_new (hps : 0 < ps) :
    r.slot ps free (pages ps r.prefixLen * ps + o) = free.getD (o / ps) 0 * ps + o % ps := by
  rw [slot, if_neg (by omega), mul_comm (pages ps r.prefixLen), Nat.mul_add_mod,
    Nat.mul_add_div hps, Nat.add_sub_cancel_left]

/-- The slots on the last page, if it is not full. -/
lemma slot_last (hps : 0 < ps) (hlt : pages ps r.prefixLen * ps < r.seqLen)
    (hpart : r.seqLen / ps * ps ≠ r.seqLen) (ho : o < ps) :
    r.slot ps free (r.seqLen / ps * ps + o) = free.getD (r.newPages ps - 1) 0 * ps + o := by
  have hmod : r.seqLen % ps ≠ 0 := fun h => hpart (by
    rw [mul_comm]
    exact Nat.mul_div_cancel' (Nat.dvd_of_mod_eq_zero h))
  have hle : pages ps r.prefixLen ≤ r.seqLen / ps := by
    rw [Nat.le_div_iff_mul_le hps]
    exact le_of_lt hlt
  have hmul : pages ps r.prefixLen * ps ≤ r.seqLen / ps * ps := Nat.mul_le_mul_right ps hle
  rw [slot, if_neg (by omega), mul_comm (r.seqLen / ps), Nat.mul_add_mod,
    Nat.mul_add_div hps, Nat.mod_eq_of_lt ho, Nat.div_eq_of_lt ho, add_zero, newPages,
    pages_of_mod_ne_zero hps hmod]
  congr 3
  omega

/-! ## The extend kernel -/

variable {lanes pid : Nat}

/-- The lanes up to `pid` hold the requests up to `pid`, and the others zeros. -/
lemma loadUpTo_map (f : ExtendReq → Nat) (hpid : pid < batch.length)
    (hlanes : batch.length ≤ lanes) : loadUpTo (batch.map f) lanes pid =
      (batch.take (pid + 1)).map f ++ replicate (lanes - (pid + 1)) 0 := by
  refine ext_getElem ?_ fun j hj hj' => ?_
  · simp [loadUpTo]
    omega
  · rw [loadUpTo, length_map, length_range] at hj
    simp only [loadUpTo, getElem_map, getElem_range]
    by_cases hle : j ≤ pid
    · grind
    · grind

/-- Sums of lane-wise differences, when the lanes past `pid` contribute nothing. -/
lemma sum_zipWith_loadUpTo {f g : ExtendReq → Nat} {u v : Nat → Nat} (hzero : u 0 - v 0 = 0)
    (hpid : pid < batch.length) (hlanes : batch.length ≤ lanes) :
    (zipWith (· - ·) ((loadUpTo (batch.map f) lanes pid).map u)
        ((loadUpTo (batch.map g) lanes pid).map v)).sum =
      ((batch.take (pid + 1)).map fun r => u (f r) - v (g r)).sum := by
  rw [loadUpTo_map f hpid hlanes, loadUpTo_map g hpid hlanes, map_append, map_append,
    zipWith_append (by simp), sum_append, map_replicate, map_replicate,
    zipWith_replicate, hzero, sum_replicate, map_map, map_map, zipWith_map, zipWith_self]
  simp

lemma getD_map_of_getElem? (f : ExtendReq → Nat) (h : batch[i]? = some r) :
    (batch.map f).getD i 0 = f r := by
  grind

/-- The prefix sum over the lanes that a program computes by masked loads is where its output
starts. -/
lemma sum_extendLens (h : batch[i]? = some r) (hlanes : batch.length ≤ lanes) :
    (zipWith (· - ·) (loadUpTo (batch.map (·.seqLen)) lanes i)
        (loadUpTo (batch.map (·.prefixLen)) lanes i)).sum - (r.seqLen - r.prefixLen) =
      outStart batch i := by
  have hi : i < batch.length := (List.getElem?_eq_some_iff.1 h).1
  have hsum := sum_zipWith_loadUpTo (f := (·.seqLen)) (g := (·.prefixLen)) (u := id) (v := id)
    rfl hi hlanes
  rw [map_id, map_id] at hsum
  rw [hsum]
  exact Nat.sub_eq_of_eq_add (outStart_succ h)

/-- In the same way a program finds the first free page that is its own. -/
lemma sum_newPages (h : batch[i]? = some r) (hlanes : batch.length ≤ lanes) :
    (zipWith (· - ·) ((loadUpTo (batch.map (·.seqLen)) lanes i).map (pages ps))
        ((loadUpTo (batch.map (·.prefixLen)) lanes i).map (pages ps))).sum -
        (pages ps r.seqLen - pages ps r.prefixLen) = pageStart ps batch i := by
  have hi : i < batch.length := (List.getElem?_eq_some_iff.1 h).1
  rw [sum_zipWith_loadUpTo (Nat.sub_self _) hi hlanes]
  exact Nat.sub_eq_of_eq_add (pageStart_succ h)

lemma le_pages_mul (hps : 0 < ps) (n : Nat) : n ≤ pages ps n * ps := by
  rw [mul_comm]
  exact le_mul_pages hps n

section
variable {lanes : Nat} (hps : 0 < ps) (h : batch[i]? = some r)
include hps h

lemma writes_part1 :
    Writes (storeLanes (range ps)
        (fun j => decide (j < min r.seqLen (pages ps r.prefixLen * ps) - r.prefixLen))
        (outStart batch i + ·) (r.nextLoc + ·))
      (span (outStart batch i) (min r.seqLen (pages ps r.prefixLen * ps) - r.prefixLen))
      fun a => (extendSlots ps free batch).getD a 0 := by
  have hpage := pages_mul_lt hps r.prefixLen
  have hext : r.extendLen = r.seqLen - r.prefixLen := rfl
  refine Writes.storeSpan (by omega) fun k hk => ?_
  rw [getD_extendSlots ps free h (by omega), slot_old (by omega), Nat.add_sub_cancel_left]

variable {n₁ n₂ : Nat}

lemma writes_part2 (h1 : r.prefixLen + n₁ = pages ps r.prefixLen * ps)
    (h2 : pages ps r.prefixLen * ps + n₂ = r.seqLen / ps * ps) :
    Writes (fun m => (range ((n₂ + blockExtend - 1) / blockExtend)).foldl
        (fun m b => storeLanes (range blockExtend) (fun j => decide (b * blockExtend + j < n₂))
          (fun j => outStart batch i + n₁ + (b * blockExtend + j))
          (fun j => free.getD (pageStart ps batch i + (b * blockExtend + j) / ps) 0 * ps +
            (b * blockExtend + j) % ps) m) m)
      (span (outStart batch i + n₁) n₂) fun a => (extendSlots ps free batch).getD a 0 := by
  have hfloor : r.seqLen / ps * ps ≤ r.seqLen := Nat.div_mul_le_self _ _
  have hext : r.extendLen = r.seqLen - r.prefixLen := rfl
  refine Writes.storeBlocks (v := fun k =>
    free.getD (pageStart ps batch i + k / ps) 0 * ps + k % ps) blockExtend_pos ?_ fun k hk => ?_
  · have := le_mul_pages blockExtend_pos n₂
    rwa [mul_comm] at this
  · rw [add_assoc, getD_extendSlots ps free h (by omega),
      show r.prefixLen + (n₁ + k) = pages ps r.prefixLen * ps + k by omega, slot_new hps, getD_drop]

lemma writes_part3 (hdone : pages ps r.prefixLen * ps < r.seqLen)
    (h1 : r.prefixLen + n₁ = pages ps r.prefixLen * ps)
    (h2 : pages ps r.prefixLen * ps + n₂ = r.seqLen / ps * ps)
    (hpart : r.seqLen / ps * ps ≠ r.seqLen) :
    Writes (storeLanes (range ps) (fun j => decide (j < r.seqLen - r.seqLen / ps * ps))
        (outStart batch i + n₁ + n₂ + ·)
        (free.getD (pageStart ps batch i + (pages ps r.seqLen - pages ps r.prefixLen) - 1) 0 *
          ps + ·))
      (span (outStart batch i + (n₁ + n₂)) (r.seqLen - r.seqLen / ps * ps))
      fun a => (extendSlots ps free batch).getD a 0 := by
  have hext : r.extendLen = r.seqLen - r.prefixLen := rfl
  have hmod : r.seqLen - r.seqLen / ps * ps < ps := by
    have := Nat.mod_lt r.seqLen hps
    rw [Nat.mod_eq_sub_div_mul] at this
    exact this
  have hnew : 0 < r.newPages ps := by
    have := (lt_pages_iff hps).2 (show ps * pages ps r.prefixLen < r.seqLen by rwa [mul_comm])
    rw [newPages]
    omega
  rw [add_assoc (outStart batch i)]
  refine Writes.storeSpan (le_of_lt hmod) fun k hk => ?_
  rw [add_assoc, getD_extendSlots ps free h (by omega),
    show r.prefixLen + (n₁ + n₂ + k) = r.seqLen / ps * ps + k by omega,
    slot_last hps hdone hpart (by omega), getD_drop, ← Nat.add_sub_assoc hnew]
  rfl

/-- **One program of the extend kernel** writes the slots of its request, where they belong. -/
theorem writes_allocExtendKernel (hlanes : batch.length ≤ lanes) :
    Writes (allocExtendKernel batch free lanes ps i) (span (outStart batch i) r.extendLen)
      fun a => (extendSlots ps free batch).getD a 0 := by
  have hle := r.le
  have hext : r.extendLen = r.seqLen - r.prefixLen := rfl
  have hceil := le_pages_mul hps r.prefixLen
  have hpart1 : Writes _ _ fun a => (extendSlots ps free batch).getD a 0 := writes_part1 hps h
  unfold allocExtendKernel
  simp only [getD_map_of_getElem? _ h, sum_extendLens h hlanes, sum_newPages h hlanes]
  by_cases hdone : r.seqLen ≤ pages ps r.prefixLen * ps
  · simp_all
  rw [not_le] at hdone
  rw [min_eq_right (le_of_lt hdone)] at hpart1 ⊢
  simp only [Nat.add_sub_cancel' hceil, if_neg (ne_of_lt hdone)]
  have h1 := Nat.add_sub_cancel' hceil
  have hfloor : r.seqLen / ps * ps ≤ r.seqLen := Nat.div_mul_le_self _ _
  have h2 : pages ps r.prefixLen * ps + (r.seqLen / ps * ps - pages ps r.prefixLen * ps) = _ :=
    Nat.add_sub_cancel' (Nat.mul_le_mul_right ps ((Nat.le_div_iff_mul_le hps).2 (le_of_lt hdone)))
  generalize pages ps r.prefixLen * ps - r.prefixLen = n₁ at hpart1 h1 ⊢
  generalize r.seqLen / ps * ps - pages ps r.prefixLen * ps = n₂ at h2 ⊢
  have hparts := (hpart1.comp (writes_part2 hps h h1 h2)).congr span_union
  by_cases hall : pages ps r.prefixLen * ps + n₂ = r.seqLen
  · simp only [if_pos hall]
    rw [show r.extendLen = n₁ + n₂ by omega]
    exact hparts
  · simp only [if_neg hall]
    rw [show r.extendLen = n₁ + n₂ + (r.seqLen - r.seqLen / ps * ps) by omega]
    exact (hparts.comp (writes_part3 hps h hdone h1 h2 (by omega))).congr span_union

end

/-- A number below a sum over the requests belongs to one of them. -/
lemma exists_of_lt_sum (f : ExtendReq → Nat) : ∀ {batch : List ExtendReq} {a : Nat},
    a < (batch.map f).sum → ∃ i r k, batch[i]? = some r ∧ k < f r ∧
      a = ((batch.take i).map f).sum + k
  | [], _, h => absurd h (Nat.not_lt_zero _)
  | r :: batch, a, h => by
    rw [map_cons, sum_cons] at h
    by_cases ha : a < f r
    · exact ⟨0, r, a, rfl, ha, (zero_add a).symm⟩
    obtain ⟨i, r', k, hi, hk, hak⟩ := exists_of_lt_sum f
      (show a - f r < (batch.map f).sum by omega)
    refine ⟨i + 1, r', k, hi, hk, ?_⟩
    rw [take_succ_cons, map_cons, sum_cons]
    omega

/-- Every place of the output belongs to one token of one request. -/
lemma exists_request {a : Nat} (ha : a < numTokens batch) :
    ∃ i r k, batch[i]? = some r ∧ k < r.extendLen ∧ a = outStart batch i + k :=
  exists_of_lt_sum (·.extendLen) ha

lemma le_nextPowerOf2 (n : Nat) : n ≤ nextPowerOf2 n := by
  grind [nextPowerOf2, Nat.lt_log2_self]

lemma map_range_eq {l : List Nat} {g : Nat → Nat} {n : Nat} (hn : l.length = n)
    (h : ∀ a < n, g a = l.getD a 0) : (range n).map g = l := by
  refine ext_getElem (by simp [hn]) fun a ha ha' => ?_
  rw [getElem_map, getElem_range, h a (hn ▸ ha'), getD_eq_getElem _ _ ha']

variable {order : List Nat}

/-- **The extend kernel computes `extendSlots`**, whatever the order of its programs and whatever
the output held. -/
theorem launch_allocExtendKernel (hps : 0 < ps) (batch : List ExtendReq) (free : List Nat)
    (horder : order.Perm (List.range batch.length)) (out : Nat → Nat) :
    (List.range (numTokens batch)).map
        (launch (allocExtendKernel batch free (nextPowerOf2 batch.length) ps) order out) =
      extendSlots ps free batch := by
  have hprog : ∀ pid ∈ order, Writes
      (allocExtendKernel batch free (nextPowerOf2 batch.length) ps pid)
      {a | ∃ r, batch[pid]? = some r ∧ a ∈ span (outStart batch pid) r.extendLen}
      fun a => (extendSlots ps free batch).getD a 0 := by
    intro pid hpid
    have hr := getElem?_eq_getElem (mem_range.1 (horder.mem_iff.1 hpid))
    refine (writes_allocExtendKernel hps hr (le_nextPowerOf2 _)).congr fun a => ?_
    constructor
    · exact fun ha => ⟨_, hr, ha⟩
    · grind
  have hlaunch := Writes.launch hprog
  refine map_range_eq (length_extendSlots ps batch free) fun a ha => ?_
  obtain ⟨i, r, k, hi, hk, rfl⟩ := exists_request ha
  refine hlaunch.inside out _ ⟨i, ?_, r, hi, k, hk, rfl⟩
  exact horder.mem_iff.2 (mem_range.2 (List.getElem?_eq_some_iff.1 hi).1)

/-! ## The vector operations -/

lemma getD_cumsum : ∀ {xs} {acc i}, i < xs.length →
    (cumsum acc xs).getD i 0 = acc + (xs.take (i + 1)).sum
  | [], _, _, h => absurd h (Nat.not_lt_zero _)
  | x :: xs, acc, 0, _ => by simp [cumsum]
  | x :: xs, acc, i + 1, h => by
    rw [cumsum, getD_cons_succ, getD_cumsum (Nat.lt_of_succ_lt_succ h), take_succ_cons,
      sum_cons, add_assoc]

lemma le_of_mem_cumsum : ∀ {xs} {acc e}, e ∈ cumsum acc xs → acc ≤ e
  | [], _, _, h => absurd h not_mem_nil
  | x :: xs, acc, e, h => by
    rcases mem_cons.1 h with rfl | h
    · exact Nat.le_add_right _ _
    · exact le_trans (Nat.le_add_right _ _) (le_of_mem_cumsum h)

/-- `torch.searchsorted` finds the request an output address belongs to. -/
lemma countP_cumsum : ∀ {batch} {i : Nat} (acc : Nat), batch[i]? = some r →
    k < r.extendLen → (cumsum acc (batch.map (·.extendLen))).countP
      (fun e => decide (e ≤ acc + (outStart batch i + k))) = i
  | [], _, _, h, _ => absurd h (by simp)
  | r' :: batch, 0, acc, h, hk => by
    obtain rfl := Option.some_inj.1 h
    rw [countP_eq_zero]
    intro e he
    have : acc + r'.extendLen ≤ e := by
      rcases mem_cons.1 he with rfl | he
      · exact le_refl _
      · exact le_of_mem_cumsum he
    have hzero : outStart (r' :: batch) 0 = 0 := rfl
    rw [hzero, decide_eq_true_eq]
    omega
  | r' :: batch, i + 1, acc, h, hk => by
    have hstart : outStart (r' :: batch) (i + 1) = r'.extendLen + outStart batch i := by
      rw [outStart, take_succ_cons, map_cons, sum_cons, outStart]
    have ih := countP_cumsum (acc + r'.extendLen) (show batch[i]? = some r from h) hk
    rw [map_cons, cumsum, countP_cons_of_pos (by rw [hstart]; simp; omega), hstart,
      ← add_assoc acc, ← add_assoc acc, add_assoc (acc + r'.extendLen), ih]

lemma getD_cumsum_sub : ∀ {xs} {acc i}, i < xs.length →
    (zipWith (· - ·) (cumsum acc xs) xs).getD i 0 = acc + (xs.take i).sum
  | [], _, _, h => absurd h (Nat.not_lt_zero _)
  | x :: xs, acc, 0, _ => by simp [cumsum]
  | x :: xs, acc, i + 1, h => by
    rw [cumsum, zipWith_cons_cons, getD_cons_succ,
      getD_cumsum_sub (Nat.lt_of_succ_lt_succ h), take_succ_cons, sum_cons, add_assoc]

/-- A vector operation on vectors with one entry for each request. -/
lemma zipWith_map_batch {α β γ : Type} (op : α → β → γ) (f : ExtendReq → α) (g : ExtendReq → β)
    (batch : List ExtendReq) :
    zipWith op (batch.map f) (batch.map g) = batch.map fun r => op (f r) (g r) := by
  rw [zipWith_map, zipWith_self]

lemma zipWith_batch {β γ : Type} (op : ExtendReq → β → γ) (g : ExtendReq → β)
    (batch : List ExtendReq) :
    zipWith op batch (batch.map g) = batch.map fun r => op r (g r) := by
  rw [zipWith_map_right, zipWith_self]

/-- How many positions of a request lie on the old page, on full new pages and on the last one. -/
def ExtendReq.num1 (ps : Nat) (r : ExtendReq) : Nat :=
  min r.seqLen (pages ps r.prefixLen * ps) - r.prefixLen

@[inherit_doc ExtendReq.num1]
def ExtendReq.num2 (ps : Nat) (r : ExtendReq) : Nat :=
  if decide (r.prefixLen + r.num1 ps = r.seqLen) then 0
  else r.seqLen / ps * ps - pages ps r.prefixLen * ps

@[inherit_doc ExtendReq.num1]
def ExtendReq.num3 (ps : Nat) (r : ExtendReq) : Nat :=
  if decide (r.prefixLen + r.num1 ps = r.seqLen) then 0 else r.seqLen - r.seqLen / ps * ps

/-- The parts of a request: all of it on the old page, or the rest of that page and new ones. -/
lemma num_cases (hps : 0 < ps) (r : ExtendReq) :
    (r.seqLen ≤ pages ps r.prefixLen * ps ∧ r.num1 ps = r.extendLen ∧ r.num2 ps = 0 ∧
        r.num3 ps = 0) ∨
      (pages ps r.prefixLen * ps < r.seqLen ∧ r.prefixLen + r.num1 ps = pages ps r.prefixLen * ps ∧
        pages ps r.prefixLen * ps + r.num2 ps = r.seqLen / ps * ps ∧
        r.num3 ps = r.seqLen % ps) := by
  have hceil := le_pages_mul hps r.prefixLen
  have hle := r.le
  by_cases hdone : r.seqLen ≤ pages ps r.prefixLen * ps
  · have h1 : r.num1 ps = r.seqLen - r.prefixLen := by rw [num1, min_eq_left hdone]
    have hall : decide (r.prefixLen + r.num1 ps = r.seqLen) = true := by
      rw [decide_eq_true_eq]
      omega
    exact .inl ⟨hdone, h1, if_pos hall, if_pos hall⟩
  · rw [not_le] at hdone
    have h1 : r.num1 ps = pages ps r.prefixLen * ps - r.prefixLen := by
      rw [num1, min_eq_right (le_of_lt hdone)]
    have hmore : ¬ decide (r.prefixLen + r.num1 ps = r.seqLen) = true := by
      rw [decide_eq_true_eq]
      omega
    have hfull : pages ps r.prefixLen * ps ≤ r.seqLen / ps * ps :=
      Nat.mul_le_mul_right ps ((Nat.le_div_iff_mul_le hps).2 (le_of_lt hdone))
    refine .inr ⟨hdone, by omega, ?_, ?_⟩
    · rw [num2, if_neg hmore]
      omega
    · rw [num3, if_neg hmore, Nat.mod_eq_sub_div_mul]

/-- The two counts of the naive version add up to the new pages. -/
lemma newPages_eq_num (hps : 0 < ps) (r : ExtendReq) :
    (r.num2 ps / ps + if 0 < r.num3 ps then 1 else 0) = r.newPages ps := by
  rw [newPages]
  rcases num_cases hps r with ⟨hdone, -, h2, h3⟩ | ⟨hmore, -, h2, h3⟩
  · simp_all [pages_le_iff, mul_comm]
  have hdiv : r.num2 ps / ps = r.seqLen / ps - pages ps r.prefixLen := by
    rw [← Nat.sub_eq_of_eq_add' h2.symm, ← Nat.sub_mul, Nat.mul_div_cancel _ hps]
  have hle : pages ps r.prefixLen ≤ r.seqLen / ps := (Nat.le_div_iff_mul_le hps).2 (le_of_lt hmore)
  rw [hdiv, h3]
  by_cases hmod : r.seqLen % ps = 0
  · rw [if_neg (by omega), pages_of_mod_eq_zero hps hmod, add_zero]
  · grind [pages_of_mod_ne_zero]

/-- No request reaches past the pages of the batch. -/
lemma newPages_le_of_getElem? (h : batch[i]? = some r) :
    pageStart ps batch i + r.newPages ps ≤ getNumNewPages ps batch := by
  have hsum := sum_take_add_sum_drop (batch.map (·.newPages ps)) (i + 1)
  rw [← pageStart_succ h, pageStart, getNumNewPages, map_take]
  omega

/-- One entry of the vector operations, phase by phase; the clamped indices are in range. -/
lemma slot_by_parts {s : Nat} (hps : 0 < ps) (hk : k < r.extendLen)
    (hroom : s + r.newPages ps ≤ free.length) :
    (if k < r.num1 ps then r.nextLoc + k else if k < r.num1 ps + r.num2 ps then
        free.getD (min (s + (k - r.num1 ps) / ps) (free.length - 1)) 0 * ps + (k - r.num1 ps) % ps
      else free.getD (min (s + r.newPages ps - 1) (free.length - 1)) 0 * ps +
        (k - r.num1 ps - r.num2 ps)) =
      r.slot ps (free.drop s) (r.prefixLen + k) := by
  have hnew := newPages_eq_num hps r
  have hext : r.extendLen = r.seqLen - r.prefixLen := rfl
  rcases num_cases hps r with ⟨hdone, h1, -, -⟩ | ⟨hmore, h1, h2, h3⟩
  · rw [if_pos (by omega), slot_old (by omega), Nat.add_sub_cancel_left]
  · split
    · rw [slot_old (by omega), Nat.add_sub_cancel_left]
    · rename_i hge
      rw [show r.prefixLen + k = pages ps r.prefixLen * ps + (k - r.num1 ps) by omega, slot_new hps,
        getD_drop]
      have hmul : r.num2 ps = r.num2 ps / ps * ps := by
        have hdvd : ps ∣ r.num2 ps := by
          rw [← Nat.sub_eq_of_eq_add' h2.symm, ← Nat.sub_mul]
          exact dvd_mul_left ps _
        exact (Nat.div_mul_cancel hdvd).symm
      split
      · rename_i hlt
        have hdiv : (k - r.num1 ps) / ps < r.num2 ps / ps := by
          rw [Nat.div_lt_iff_lt_mul hps, ← hmul]
          omega
        have hroom : s + (k - r.num1 ps) / ps ≤ free.length - 1 := by
          omega
        rw [min_eq_left hroom]
      · rename_i hrest
        have hmod := Nat.mod_lt r.seqLen hps
        have hsplit := Nat.div_add_mod' r.seqLen ps
        have ho : k - r.num1 ps - r.num2 ps < ps := by omega
        have hdiv : (k - r.num1 ps) / ps = r.num2 ps / ps := by
          rw [show k - r.num1 ps = k - r.num1 ps - r.num2 ps + r.num2 ps / ps * ps by omega,
            Nat.add_mul_div_right _ _ hps, Nat.div_eq_of_lt ho, zero_add]
        have hoff : (k - r.num1 ps) % ps = k - r.num1 ps - r.num2 ps := by
          rw [show k - r.num1 ps = k - r.num1 ps - r.num2 ps + r.num2 ps / ps * ps by omega,
            Nat.add_mul_mod_self_right, Nat.mod_eq_of_lt ho]
          omega
        rw [if_pos (by omega)] at hnew
        have hlast : s + r.newPages ps - 1 = s + r.num2 ps / ps := by
          rw [← hnew]
          rfl
        have hroom : s + r.newPages ps - 1 ≤ free.length - 1 := by
          omega
        rw [min_eq_left hroom, hdiv, hoff, hlast]

/-- **The vector operations compute `extendSlots`**, as long as the free list has the pages. -/
theorem allocExtendNaive_eq (hps : 0 < ps) (hfree : getNumNewPages ps batch ≤ free.length) :
    allocExtendNaive batch free (numTokens batch) ps = .ok (extendSlots ps free batch) := by
  have hlt : ∀ {i r} (f : ExtendReq → Nat), batch[i]? = some r → i < (batch.map f).length :=
    fun f h => by
      grind
  -- What the gathers by `owner` read.
  have howner : ∀ {i r k}, batch[i]? = some r → k < r.extendLen →
      (cumsum 0 (batch.map (·.extendLen))).countP
        (fun e => decide (e ≤ outStart batch i + k)) = i := fun h hk => by
    have := countP_cumsum 0 h hk
    rwa [zero_add] at this
  have hpos : ∀ {i r}, batch[i]? = some r → (zipWith (· - ·)
      (cumsum 0 (batch.map (·.extendLen))) (batch.map (·.extendLen))).getD i 0 =
        outStart batch i := fun h => by
    rw [getD_cumsum_sub (hlt _ h), zero_add, outStart, map_take]
  simp only [allocExtendNaive, zipWith_batch, zipWith_map_batch]
  split
  · rename_i hzero
    rw [eq_nil_of_length_eq_zero ((length_extendSlots ps batch free).trans hzero)]
  split
  · rename_i hempty
    have hold : ∀ {i : Nat} {r : ExtendReq}, batch[i]? = some r →
        pages ps r.seqLen = pages ps r.prefixLen := by
      intro i r h
      have hnew : pageStart ps batch i + r.newPages ps ≤ _ := newPages_le_of_getElem? h
      have hmono := pages_mono hps r.le
      rw [newPages] at hnew
      omega
    rw [if_pos]
    · refine congrArg _ (map_range_eq (length_extendSlots ps batch free) fun a ha => ?_)
      obtain ⟨i, r, k, hi, hk, rfl⟩ := exists_request ha
      have hseq := le_mul_pages hps r.seqLen
      have hlen : r.extendLen = r.seqLen - r.prefixLen := rfl
      rw [hold hi, mul_comm] at hseq
      rw [howner hi hk, hpos hi, getD_map_of_getElem? _ hi, getD_extendSlots ps free hi hk,
        Nat.add_sub_cancel_left, slot_old (by omega), Nat.add_sub_cancel_left]
    · rw [all_eq_true]
      intro r hr
      obtain ⟨i, hi⟩ := getElem?_of_mem hr
      rw [hold hi]
      exact beq_self_eq_true _
  · rename_i hsome
    have hend : ∀ {i : Nat} {r : ExtendReq}, batch[i]? = some r →
        (cumsum 0 (batch.map (·.newPages ps))).getD i 0 = pageStart ps batch i + r.newPages ps := by
      intro i r h
      rw [getD_cumsum (hlt _ h), zero_add, ← pageStart_succ h, pageStart, map_take]
    have hstart : ∀ {i : Nat} {r : ExtendReq}, batch[i]? = some r →
        (zipWith (· - ·) (cumsum 0 (batch.map (·.newPages ps)))
          (batch.map (·.newPages ps))).getD i 0 = pageStart ps batch i := by
      intro i r h
      rw [getD_cumsum_sub (hlt _ h), zero_add, pageStart, map_take]
    have hpages : (batch.map fun r => (r.num2 ps / ps + if 0 < r.num3 ps then 1 else 0)) =
        batch.map (·.newPages ps) := map_congr_left fun r _ => newPages_eq_num hps r
    refine congrArg _ (map_range_eq (length_extendSlots ps batch free) fun a ha => ?_)
    obtain ⟨i, r, k, hi, hk, rfl⟩ := exists_request ha
    rw [howner hi hk, hpos hi, getD_extendSlots ps free hi hk, Nat.add_sub_cancel_left]
    show (if k < (batch.map (·.num1 ps)).getD i 0 then (batch.map (·.nextLoc)).getD i 0 + k
      else if k < (batch.map (·.num1 ps)).getD i 0 + (batch.map (·.num2 ps)).getD i 0 then
        free.getD (min ((zipWith (· - ·)
          (cumsum 0 (batch.map fun r => (r.num2 ps / ps + if 0 < r.num3 ps then 1 else 0)))
          (batch.map fun r => (r.num2 ps / ps + if 0 < r.num3 ps then 1 else 0))).getD i 0 +
            (k - (batch.map (·.num1 ps)).getD i 0) / ps) (free.length - 1)) 0 * ps +
          (k - (batch.map (·.num1 ps)).getD i 0) % ps
      else free.getD (min ((cumsum 0 (batch.map fun r =>
          (r.num2 ps / ps + if 0 < r.num3 ps then 1 else 0))).getD i 0 - 1) (free.length - 1)) 0 *
        ps + (k - (batch.map (·.num1 ps)).getD i 0 - (batch.map (·.num2 ps)).getD i 0)) = _
    rw [hpages, hstart hi, hend hi]
    simp only [getD_map_of_getElem? _ hi]
    exact slot_by_parts hps hk (le_trans (newPages_le_of_getElem? hi) hfree)

/-! ## The decode kernel -/

/-- A decode step: one token a request. -/
def OneToken (batch : List ExtendReq) : Prop := ∀ r ∈ batch, r.prefixLen + 1 = r.seqLen

lemma OneToken.extendLen (h : OneToken batch) (hr : r ∈ batch) : r.extendLen = 1 := by
  have := h r hr
  rw [ExtendReq.extendLen]
  omega

lemma outStart_of_oneToken (h : OneToken batch) (hi : i ≤ batch.length) :
    outStart batch i = i := by
  have hone : (batch.take i).map (·.extendLen) = replicate i 1 := by
    rw [eq_replicate_iff, length_map, length_take]
    refine ⟨min_eq_left hi, fun x hx => ?_⟩
    obtain ⟨r, hr, rfl⟩ := mem_map.1 hx
    exact h.extendLen (mem_of_mem_take hr)
  rw [outStart, hone, sum_replicate]
  simp

lemma numTokens_of_oneToken (h : OneToken batch) : numTokens batch = batch.length := by
  rw [← outStart_length, outStart_of_oneToken h (le_refl _)]

/-- The decode kernel computes the prefix lengths from the sequence lengths. -/
lemma preLens_of_oneToken (h : OneToken batch) (hi : i < batch.length) (lanes : Nat) :
    ((range lanes).map fun j => if j ≤ i then (loadUpTo (batch.map (·.seqLen)) lanes i).getD j 0 - 1
        else (loadUpTo (batch.map (·.seqLen)) lanes i).getD j 0) =
      loadUpTo (batch.map (·.prefixLen)) lanes i := by
  refine map_congr_left fun j hj => ?_
  have hj := mem_range.1 hj
  have hread : (loadUpTo (batch.map (·.seqLen)) lanes i).getD j 0 =
      if j ≤ i then (batch.map (·.seqLen)).getD j 0 else 0 := by
    rw [loadUpTo, getD_eq_getElem _ _ (by simpa using hj), getElem_map, getElem_range]
  rw [hread]
  by_cases hle : j ≤ i
  · have hget := getElem?_eq_getElem (lt_of_le_of_lt hle hi)
    have := h _ (getElem_mem (lt_of_le_of_lt hle hi))
    rw [if_pos hle, if_pos hle, if_pos hle, getD_map_of_getElem? _ hget,
      getD_map_of_getElem? _ hget]
    omega
  · rw [if_neg hle, if_neg hle, if_neg hle]

/-- A program of the decode kernel writes the slot of its own request. -/
lemma writes_allocDecodeKernel (hps : 0 < ps) (hone : OneToken batch) (h : batch[i]? = some r)
    (hlanes : batch.length ≤ lanes) :
    Writes (allocDecodeKernel batch free lanes ps i) {a | a = i}
      fun a => (extendSlots ps free batch).getD a 0 := by
  have hi : i < batch.length := (List.getElem?_eq_some_iff.1 h).1
  have hr := hone r (mem_of_getElem? h)
  have hpre : r.seqLen - 1 = r.prefixLen := by omega
  have hslot : (extendSlots ps free batch).getD i 0 =
      r.slot ps (free.drop (pageStart ps batch i)) r.prefixLen := by
    have := getD_extendSlots ps free h (show 0 < r.extendLen by rw [extendLen]; omega)
    rwa [add_zero, add_zero, outStart_of_oneToken hone (le_of_lt hi)] at this
  have hceil := le_pages_mul hps r.prefixLen
  unfold allocDecodeKernel
  simp only [getD_map_of_getElem? _ h, preLens_of_oneToken hone hi lanes, hpre,
    sum_newPages h hlanes]
  by_cases hnew : pages ps r.seqLen - pages ps r.prefixLen = 0
  · have hlt : r.prefixLen < pages ps r.prefixLen * ps := by
      have := (pages_le_iff hps).1 (Nat.sub_eq_zero_iff_le.1 hnew)
      rw [mul_comm] at this
      omega
    simp only [if_pos hnew]
    refine ⟨fun m a ha => ?_, fun m a ha => if_neg ha⟩
    obtain rfl : a = i := ha
    rw [if_pos rfl, hslot, slot_old hlt, Nat.sub_self, add_zero]
  · have heq : r.prefixLen = pages ps r.prefixLen * ps := by
      have := (lt_pages_iff hps).1 (show pages ps r.prefixLen < pages ps r.seqLen by omega)
      rw [mul_comm] at this
      omega
    simp only [if_neg hnew]
    refine ⟨fun m a ha => ?_, fun m a ha => if_neg ha⟩
    obtain rfl : a = i := ha
    rw [if_pos rfl, hslot]
    have hnewslot : r.slot ps (free.drop (pageStart ps batch a)) (_ + 0) = _ := slot_new hps
    rw [add_zero, ← heq, Nat.zero_div, Nat.zero_mod, add_zero, getD_drop, add_zero] at hnewslot
    exact hnewslot.symm

/-- **The decode kernel computes `extendSlots`** of one token a request, in any order. -/
theorem launch_allocDecodeKernel (hps : 0 < ps) (hone : OneToken batch) (free : List Nat)
    (horder : order.Perm (range batch.length)) (out : Nat → Nat) :
    (range batch.length).map
        (launch (allocDecodeKernel batch free (nextPowerOf2 batch.length) ps) order out) =
      extendSlots ps free batch := by
  have hprog : ∀ pid ∈ order, Writes
      (allocDecodeKernel batch free (nextPowerOf2 batch.length) ps pid) {a | a = pid}
      fun a => (extendSlots ps free batch).getD a 0 := fun pid hpid =>
    writes_allocDecodeKernel hps hone
      (getElem?_eq_getElem (mem_range.1 (horder.mem_iff.1 hpid))) (le_nextPowerOf2 _)
  refine map_range_eq ((length_extendSlots ps batch free).trans (numTokens_of_oneToken hone))
    fun a ha => ?_
  exact (Writes.launch hprog).inside out a ⟨a, horder.mem_iff.2 (mem_range.2 ha), rfl⟩

end Sglang.Alloc
