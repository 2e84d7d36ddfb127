import Sglang.Sticky.Pool

/-!
# What a row holds, takes and gives back

The pages of a record are those of the positions its row has slots for, the last one counted whole
(`pagesOf`).  A row is *aligned* when the slot of a position sits on the page of that position, at
the offset of the position in its page.

Two facts are all the accounting needs.  Giving back a page-aligned part of an aligned row adds the
pages of that part to the free list, each once (`freeKvRow_spec`).  Growing a row takes the pages it
adds from the front of the free list, and keeps the row aligned (`allocExtend_spec`).
-/

namespace Sglang.Sticky
open List Option Allocator

/-! ## Rounding up -/

variable {x y : Nat}

lemma ceilDiv_le_iff {k : Nat} (hy : 0 < y) : ceilDiv x y ≤ k ↔ x ≤ y * k := by
  have h := ceilDiv_le_iff_le_mul (b := x) (c := k) hy
  rwa [Nat.ceilDiv_eq_add_pred_div] at h

lemma lt_ceilDiv_iff {k : Nat} (hy : 0 < y) : k < ceilDiv x y ↔ y * k < x := by
  rw [← not_le, ceilDiv_le_iff hy, not_le]

lemma ceilDiv_mono {x' : Nat} (hy : 0 < y) (h : x ≤ x') : ceilDiv x y ≤ ceilDiv x' y := by
  rw [ceilDiv_le_iff hy]
  exact le_trans h ((ceilDiv_le_iff hy).1 (le_refl _))

lemma le_ceilAlign (x : Nat) (hy : 0 < y) : x ≤ ceilAlign x y := by
  rw [ceilAlign, mul_comm]
  exact (ceilDiv_le_iff hy).1 (le_refl _)

lemma ceilAlign_mod (x y : Nat) : ceilAlign x y % y = 0 := Nat.mul_mod_left _ _

lemma ceilAlign_div (x : Nat) (hy : 0 < y) : ceilAlign x y / y = ceilDiv x y :=
  Nat.mul_div_cancel _ hy

variable {start stop : Nat}

/-- Whole pages in front do not change how many more are needed. -/
lemma ceilDiv_sub (hy : 0 < y) (h : start % y = 0) :
    ceilDiv (stop - start) y = ceilDiv stop y - start / y := by
  have hs : y * (start / y) = start := Nat.mul_div_cancel' (Nat.dvd_of_mod_eq_zero h)
  refine le_antisymm ((ceilDiv_le_iff hy).2 ?_) ?_
  · have hle := (ceilDiv_le_iff hy).1 (le_refl (ceilDiv stop y))
    by_cases hc : start / y ≤ ceilDiv stop y
    · rw [Nat.mul_sub, hs]
      omega
    · have : stop ≤ start := by
        rw [← hs]
        exact le_trans hle (Nat.mul_le_mul_left y (by omega))
      omega
  · rw [Nat.sub_le_iff_le_add, ceilDiv_le_iff hy, mul_add, hs]
    have hle := (ceilDiv_le_iff hy).1 (le_refl (ceilDiv (stop - start) y))
    omega

/-! ## The pages of a record -/

/-- The page of the positions `k * ps` to `k * ps + ps - 1` of a row. -/
def pageAt (pool : ReqToTokenPool) (ps idx k : Nat) : Nat := pool.rows idx (ps * k) / ps

/-- The pages a record holds: those its allocated positions reach into. -/
def pagesOf (pool : ReqToTokenPool) (ps : Nat) (kv : ReqKvInfo) : List Nat :=
  match kv.reqPoolIdx with
  | none => []
  | some idx => (range (ceilDiv kv.kvAllocatedLen ps)).map (pageAt pool ps idx)

/-- Below `n`, the slot of a position lies on the page of the position, at its offset. -/
def Aligned (pool : ReqToTokenPool) (ps idx n : Nat) : Prop :=
  ∀ p < n, pool.rows idx p = pageAt pool ps idx (p / ps) * ps + p % ps

variable {pool : ReqToTokenPool} {ps idx : Nat}

lemma Aligned.mono {n m : Nat} (h : Aligned pool ps idx n) (hm : m ≤ n) :
    Aligned pool ps idx m := fun p hp => h p (lt_of_lt_of_le hp hm)

variable {p : Nat} {kv : ReqKvInfo}

/-- The page of an allocated slot is one of the record's. -/
lemma mem_pagesOf (hps : 0 < ps) (hidx : kv.reqPoolIdx = some idx)
    (hal : Aligned pool ps idx kv.kvAllocatedLen) (hp : p < kv.kvAllocatedLen) :
    pool.rows idx p / ps ∈ pagesOf pool ps kv := by
  rw [pagesOf, hidx]
  refine List.mem_map.2 ⟨p / ps, mem_range.2 ((lt_ceilDiv_iff hps).2 ?_), ?_⟩
  · exact lt_of_le_of_lt (Nat.mul_div_le p ps) hp
  · simp [hal p hp, mul_comm, Nat.mul_add_div hps]

/-- A row that is cut keeps its first pages. -/
lemma pagesOf_truncate (pool : ReqToTokenPool) {m : Nat} {kv' : ReqKvInfo} (hps : 0 < ps)
    (hidx : kv'.reqPoolIdx = kv.reqPoolIdx) (hm : kv'.kvAllocatedLen = m)
    (hle : m ≤ kv.kvAllocatedLen) :
    pagesOf pool ps kv' = (pagesOf pool ps kv).take (ceilDiv m ps) := by
  rw [pagesOf, pagesOf, hidx, hm]
  cases kv.reqPoolIdx with
  | none => exact take_nil.symm
  | some idx =>
    rw [← map_take, take_range, min_eq_left (ceilDiv_mono hps hle)]

lemma pagesOf_none (h : kv.reqPoolIdx = none) : pagesOf pool ps kv = [] := by
  rw [pagesOf, h]

/-- The pages of a record depend on its own row only. -/
lemma pagesOf_congr {pool' : ReqToTokenPool}
    (h : ∀ idx, kv.reqPoolIdx = some idx → ∀ p, pool'.rows idx p = pool.rows idx p) :
    pagesOf pool' ps kv = pagesOf pool ps kv := by
  rw [pagesOf, pagesOf]
  cases hidx : kv.reqPoolIdx with
  | none => rfl
  | some idx =>
    simp_all [pageAt]

/-! ## Giving back -/

lemma coalesceRanges_singleton (r : Nat × Nat) : coalesceRanges [r] = [r] := rfl

variable (a : Allocator)

/-- Pages that are given back are free, wherever the allocator puts them. -/
lemma allFree_releasePageIds (pages : List Nat) :
    (a.releasePageIds pages).allFree.Perm (a.allFree ++ pages) := by
  grind [releasePageIds, allFree]

@[simp] lemma pageSize_releasePageIds (pages : List Nat) :
    (a.releasePageIds pages).pageSize = a.pageSize := by
  rw [releasePageIds]
  split
  · rfl
  · split <;> rfl

/-- The strided pages of a page-aligned segment are the pages of its positions. -/
lemma stridedPages_slice (idx : Nat) (hps : 0 < ps) (hstart : start % ps = 0)
    (hstop : stop ≤ pool.maxContextLen) :
    Allocator.stridedPages ps (pool.slice idx start stop) =
      (range' (start / ps) (ceilDiv stop ps - start / ps)).map (pageAt pool ps idx) := by
  have hs : ps * (start / ps) = start := Nat.mul_div_cancel' (Nat.dvd_of_mod_eq_zero hstart)
  rw [stridedPages, length_slice, min_eq_left hstop, ceilDiv_sub hps hstart,
    range'_eq_map_range, List.map_map]
  refine map_congr_left fun k hk => ?_
  have hk : k < ceilDiv (stop - start) ps := by
    simp_all [ceilDiv_sub hps hstart]
  have hlt : k * ps < stop - start := mul_comm ps k ▸ (lt_ceilDiv_iff hps).1 hk
  have hget : (pool.slice idx start stop).getD (k * ps) 0 = pool.rows idx (start + k * ps) := by
    rw [getD_eq_getElem?_getD, ReqToTokenPool.slice, min_eq_left hstop,
      getElem?_map, getElem?_range' hlt]
    simp
  rw [hget]
  show _ = pageAt pool ps idx (start / ps + k)
  rw [pageAt, mul_add, hs, mul_comm ps k]

/-- **What a freed segment adds to the free list**: the pages of its positions. -/
theorem freeKvRow_spec {a : Allocator} (hps : 0 < a.pageSize) (hidx : kv.reqPoolIdx = some idx)
    (hswa : kv.swaEvictedSeqlen = 0) (hstart : start % a.pageSize = 0)
    (hstop : stop ≤ pool.maxContextLen) :
    ∃ a', freeKvRow pool a kv [(start, stop)] = .ok a' ∧ a'.pageSize = a.pageSize ∧
      a'.allFree.Perm (a.allFree ++
        (range' (start / a.pageSize) (ceilDiv stop a.pageSize - start / a.pageSize)).map
          (pageAt pool a.pageSize idx)) := by
  have hpages := stridedPages_slice idx hps hstart hstop
  rw [freeKvRow, hidx]
  rw [coalesceRanges_singleton, hswa]
  by_cases hnil : pool.slice idx start stop = []
  · refine ⟨a, by simp [freeKvRowSegments, hnil]; rfl, rfl, ?_⟩
    rw [← hpages, hnil]
    simp [stridedPages, ceilDiv, Nat.div_eq_of_lt (Nat.sub_lt hps Nat.one_pos)]
  · refine ⟨a.releasePageIds (stridedPages a.pageSize (pool.slice idx start stop)), ?_,
      pageSize_releasePageIds _ _, ?_⟩
    · have hpos : 0 < (pool.slice idx start stop).length := length_pos_of_ne_nil hnil
      simp [freeKvRowSegments, hnil, hpos, freeSegments, freeEach,
        freeSegment, hstart, bind, Except.bind]
    · rw [← hpages]
      exact allFree_releasePageIds _ _

/-! ## Taking -/

lemma allFree_mergeAndSortFree : a.mergeAndSortFree.allFree.Perm a.allFree := by
  rw [mergeAndSortFree]
  split
  · exact List.Perm.refl _
  show ((a.freePages ++ a.releasePages).mergeSort ++ []).Perm _
  rw [append_nil]
  exact mergeSort_perm _ _

@[simp] lemma pageSize_mergeAndSortFree : a.mergeAndSortFree.pageSize = a.pageSize := by
  rw [mergeAndSortFree]
  split <;> rfl

/-- The allocator after it made sure that it has `n` pages at hand, if there are that many. -/
lemma allFree_ite_merge (n : Nat) :
    (if a.freePages.length < n then a.mergeAndSortFree else a).allFree.Perm a.allFree ∧
      (if a.freePages.length < n then a.mergeAndSortFree else a).pageSize = a.pageSize := by
  grind [allFree_mergeAndSortFree, pageSize_mergeAndSortFree]

lemma pageSlots_one (l : List Nat) : Allocator.pageSlots 1 l = l := by
  simp [pageSlots]

lemma drop_append_take_perm (free release : List Nat) (n : Nat) :
    (free.drop n ++ release ++ free.take n).Perm (free ++ release) := by
  grind [take_append_drop]

/-- **What `alloc` takes at page size `1`**: that many slots of the free list, or nothing. -/
theorem alloc_spec {a : Allocator} (hps : a.pageSize = 1) (need : Nat) :
    (a.alloc need).2.pageSize = 1 ∧
      (((a.alloc need).1 = none ∧ (a.alloc need).2.allFree.Perm a.allFree) ∨
        ∃ flat, (a.alloc need).1 = some flat ∧ flat.length = need ∧
          ((a.alloc need).2.allFree ++ flat).Perm a.allFree) := by
  obtain ⟨hperm, hpage⟩ := allFree_ite_merge a (need / a.pageSize)
  simp only [alloc]
  generalize (if a.freePages.length < need / a.pageSize then a.mergeAndSortFree else a) = b
    at hperm hpage
  rw [hps, Nat.div_one] at *
  by_cases hlen : b.freePages.length < need
  · grind
  rw [if_neg hlen, hpage, pageSlots_one]
  refine ⟨rfl, .inr ⟨_, rfl, by rw [length_take]; omega, ?_⟩⟩
  exact (drop_append_take_perm b.freePages b.releasePages need).trans hperm

variable {locs : List Nat}

lemma write_rows_of_lt (h : p < start) :
    (pool.write idx start locs).rows idx p = pool.rows idx p := by
  exact if_neg (by omega)

lemma write_rows_of_ne {i : Nat} (h : i ≠ idx) :
    (pool.write idx start locs).rows i p = pool.rows i p := by
  simp_all [ReqToTokenPool.write]

lemma write_rows_of_le (h : start ≤ p) (h' : p < start + locs.length) :
    (pool.write idx start locs).rows idx p = locs.getD (p - start) 0 := by
  simp_all [ReqToTokenPool.write]

section
variable {pool : ReqToTokenPool} {ps idx start stop : Nat} {free : List Nat}

/-- The slots `alloc_extend` returns for the positions `start` to `stop`. -/
def grownLocs (pool : ReqToTokenPool) (ps idx start stop : Nat) (free : List Nat) : List Nat :=
  (range (stop - start)).map fun j =>
    if start + j < ceilAlign start ps then pool.rows idx (start - 1) + 1 + j
    else free.getD ((start + j - ceilAlign start ps) / ps) 0 * ps + (start + j) % ps

/-- The slots that a growing row gets: the rest of its last page first, then whole pages of the free
list. -/
lemma grown_row (h : start ≤ stop) {p : Nat} (hp : start ≤ p) (hps : p < stop) :
    (pool.write idx start (grownLocs pool ps idx start stop free)).rows idx p =
      if p < ceilAlign start ps then pool.rows idx (start - 1) + 1 + (p - start)
      else free.getD ((p - ceilAlign start ps) / ps) 0 * ps + p % ps := by
  have hlen : (grownLocs pool ps idx start stop free).length = stop - start := by
    simp [grownLocs]
  rw [write_rows_of_le hp (by omega), grownLocs, getD_eq_getElem?_getD, getElem?_map,
    getElem?_range (by omega), map_some, getD_some]
  rw [Nat.add_sub_cancel' hp]

/-- Growing changes no page that the row has. -/
lemma grown_page_old (hps : 0 < ps) {k : Nat} (hk : k < ceilDiv start ps) :
    pageAt (pool.write idx start (grownLocs pool ps idx start stop free)) ps idx k =
      pageAt pool ps idx k := by
  rw [pageAt, write_rows_of_lt ((lt_ceilDiv_iff hps).1 hk), pageAt]

/-- The pages that growing adds come from the front of the free list, in order. -/
lemma grown_page_new (hps : 0 < ps) (h : start ≤ stop) {k : Nat} (hk : ceilDiv start ps ≤ k)
    (hk' : k < ceilDiv stop ps) :
    pageAt (pool.write idx start (grownLocs pool ps idx start stop free)) ps idx k =
      free.getD (k - ceilDiv start ps) 0 := by
  have hge : ceilAlign start ps ≤ ps * k := by
    rw [ceilAlign, mul_comm]
    exact Nat.mul_le_mul_left ps hk
  rw [pageAt, grown_row h (le_trans (le_ceilAlign start hps) hge) ((lt_ceilDiv_iff hps).1 hk'),
    if_neg (by omega), ceilAlign, mul_comm (ceilDiv start ps) ps, ← Nat.mul_sub,
    Nat.mul_div_cancel_left _ hps, Nat.mul_mod_right, add_zero, Nat.mul_div_cancel _ hps]

/-- A row that grows stays aligned. -/
lemma grown_aligned (hps : 0 < ps) (h : start ≤ stop) (hal : Aligned pool ps idx start) :
    Aligned (pool.write idx start (grownLocs pool ps idx start stop free)) ps idx stop := by
  intro p hp
  by_cases hlt : p < start
  · have hk : p / ps < ceilDiv start ps :=
      (lt_ceilDiv_iff hps).2 (lt_of_le_of_lt (Nat.mul_div_le p ps) hlt)
    rw [write_rows_of_lt hlt, grown_page_old hps hk]
    exact hal p hlt
  · have hge : start ≤ p := Nat.le_of_not_lt hlt
    rw [grown_row h hge hp]
    by_cases hc : p < ceilAlign start ps
    · -- The rest of the last page: `start - 1` and `p` share their page.
      rw [if_pos hc]
      have hcd : ps * ceilDiv start ps = ceilAlign start ps := by rw [ceilAlign, mul_comm]
      have hpos : 0 < ceilDiv start ps := Nat.pos_of_ne_zero fun h0 => by
        grind
      have hq : ps * (ceilDiv start ps - 1) < start :=
        (lt_ceilDiv_iff hps).1 (by omega)
      have hsucc : ps * (ceilDiv start ps - 1) + ps = ceilAlign start ps := by
        rw [← hcd, ← Nat.mul_succ]
        congr 1
        omega
      generalize ceilDiv start ps - 1 = q at hq hsucc
      have hdiv : ∀ x, ps * q ≤ x → x < ps * q + ps → x / ps = q ∧ x % ps = x - ps * q := by
        intro x hx hx'
        have hxq : x / ps = q := by
          rw [Nat.div_eq_of_lt_le]
          · rwa [mul_comm]
          · grind
        have hmod := Nat.div_add_mod x ps
        rw [hxq] at hmod
        exact ⟨hxq, by omega⟩
      obtain ⟨hp1, hp2⟩ := hdiv p (by omega) (by omega)
      obtain ⟨hs1, hs2⟩ := hdiv (start - 1) (by omega) (by omega)
      have hlast := hal (start - 1) (by omega)
      rw [hs1, hs2] at hlast
      rw [hp1, hp2, grown_page_old hps ((lt_ceilDiv_iff hps).2 hq), hlast]
      omega
    · rw [if_neg hc]
      have hk : ceilDiv start ps ≤ p / ps := by
        rw [Nat.le_div_iff_mul_le hps]
        exact Nat.le_of_not_lt hc
      have hk' : p / ps < ceilDiv stop ps :=
        (lt_ceilDiv_iff hps).2 (lt_of_le_of_lt (Nat.mul_div_le p ps) hp)
      rw [grown_page_new hps h hk hk', ceilAlign, mul_comm (ceilDiv start ps) ps, Nat.sub_mul_div]

/-- The pages of a grown row: the old ones, then the first ones of the free list. -/
lemma grown_pages (hps : 0 < ps) (h : start ≤ stop)
    (hfree : ceilDiv stop ps - ceilDiv start ps ≤ free.length) :
    (range (ceilDiv stop ps)).map
        (pageAt (pool.write idx start (grownLocs pool ps idx start stop free)) ps idx) =
      (range (ceilDiv start ps)).map (pageAt pool ps idx) ++
        free.take (ceilDiv stop ps - ceilDiv start ps) := by
  have hsplit : range (ceilDiv stop ps) = range (ceilDiv start ps) ++
      (range (ceilDiv stop ps - ceilDiv start ps)).map (ceilDiv start ps + ·) := by
    rw [← range_add, Nat.add_sub_cancel' (ceilDiv_mono hps h)]
  rw [hsplit, map_append, List.map_map]
  congr 1
  · exact map_congr_left fun k hk => grown_page_old hps (mem_range.1 hk)
  · refine ext_getElem (by simp; omega) fun k hk _ => ?_
    have hk : k < ceilDiv stop ps - ceilDiv start ps := by simpa using hk
    rw [getElem_map, getElem_range, getElem_take]
    show pageAt _ ps idx (ceilDiv start ps + k) = _
    rw [grown_page_new hps h (Nat.le_add_right _ _) (by omega), Nat.add_sub_cancel_left,
      getD_eq_getElem?_getD, getElem?_eq_getElem (by omega), getD_some]

/-- **What growing a row takes**: the pages it adds, from the front of the free list. -/
theorem allocExtend_spec {a a' : Allocator} {locs : List Nat} (hps : 0 < a.pageSize)
    (hle : start ≤ stop)
    (h : a.allocExtend start stop (pool.rows idx (start - 1)) = (some locs, a'))
    (hal : Aligned pool a.pageSize idx start) :
    a'.pageSize = a.pageSize ∧ Aligned (pool.write idx start locs) a.pageSize idx stop ∧
      (a'.allFree ++ (range (ceilDiv stop a.pageSize)).map
          (pageAt (pool.write idx start locs) a.pageSize idx)).Perm
        (a.allFree ++ (range (ceilDiv start a.pageSize)).map (pageAt pool a.pageSize idx)) := by
  simp only [allocExtend] at h
  generalize hw : (if a.pageSize = 1 then ceilDiv stop a.pageSize - ceilDiv start a.pageSize
    else (stop - start) / a.pageSize + 2) = wanted at h
  obtain ⟨hperm, hpage⟩ := allFree_ite_merge a wanted
  generalize (if a.freePages.length < wanted then a.mergeAndSortFree else a) = b at h hperm hpage
  rw [hpage] at h
  by_cases hlen : b.freePages.length < ceilDiv stop a.pageSize - ceilDiv start a.pageSize
  · grind
  rw [if_neg hlen, Prod.mk.injEq, some_inj] at h
  obtain ⟨hlocs, rfl⟩ := h
  have hlocs : grownLocs pool a.pageSize idx start stop b.freePages = locs := hlocs
  subst hlocs
  refine ⟨rfl, grown_aligned hps hle hal, ?_⟩
  rw [grown_pages hps hle (by omega)]
  generalize ceilDiv stop a.pageSize - ceilDiv start a.pageSize = n
  refine (perm_append_comm.append_left _).trans ?_
  rw [← append_assoc]
  exact ((drop_append_take_perm _ _ n).trans hperm).append_right _

end

/-! ## Page size one -/

/-- With pages of one slot every row is aligned. -/
lemma aligned_one (pool : ReqToTokenPool) (idx n : Nat) : Aligned pool 1 idx n := by
  intro p _
  rw [pageAt, Nat.div_one, Nat.div_one, one_mul, mul_one, Nat.mod_one, add_zero]

lemma pagesOf_one (h : kv.reqPoolIdx = some idx) :
    pagesOf pool 1 kv = (range kv.kvAllocatedLen).map (pool.rows idx) := by
  simp_all [pagesOf, ceilDiv, pageAt, Nat.div_one, one_mul]

/-- A row after some values were written behind its first `start` positions. -/
lemma write_range (pool : ReqToTokenPool) (idx start : Nat) (values : List Nat) :
    (range (start + values.length)).map ((pool.write idx start values).rows idx) =
      (range start).map (pool.rows idx) ++ values := by
  rw [range_add, map_append, List.map_map]
  congr 1
  · exact map_congr_left fun p hp => write_rows_of_lt (mem_range.1 hp)
  · refine ext_getElem (by simp) fun k hk hk' => ?_
    rw [getElem_map, getElem_range]
    show (pool.write idx start values).rows idx (start + k) = _
    rw [write_rows_of_le (Nat.le_add_right _ _) (by omega), Nat.add_sub_cancel_left,
      getD_eq_getElem?_getD, getElem?_eq_getElem hk', getD_some]

end Sglang.Sticky
