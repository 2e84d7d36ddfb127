import Sglang.Alloc.Extend

/-!
# What a paged allocation hands out

Every position gets a slot at its own offset, the positions of one page get the slots of one page,
and the pages are the one of the last slot and those at the front of the free list
(`CorrectSlots`).  `alloc_extend_correct` puts the methods together with the kernels.

* `correct_extendSlots`: the slots that the kernels write are right.
* `take_cases`: a pool fails only when it has too few pages, and then takes none.
* `alloc_extend_correct`: an `alloc_extend` that succeeds hands out right slots, on distinct pages.
* `alloc_decode_is_not_alloc_extend`: the two methods merge the staged pages at different times and
  can hand out different pages for the same token.
-/

namespace Sglang.Alloc
open Lib List ExtendReq Nat Pool

/-- `last_loc` is at the offset of position `prefix_len - 1` in its page. -/
def ExtendReq.Located (ps : Nat) (r : ExtendReq) : Prop := r.nextLoc % ps = r.prefixLen % ps

instance (ps : Nat) (r : ExtendReq) : Decidable (r.Located ps) :=
  inferInstanceAs (Decidable (_ = _))

/-- The slot a position of the `i`-th request got. -/
def outAt (batch : List ExtendReq) (out : List Nat) (i : Nat) (r : ExtendReq) (p : Nat) : Nat :=
  out.getD (outStart batch i + (p - r.prefixLen)) 0

/-- The place in the free list of the page of a new position. -/
def pageIndex (ps : Nat) (batch : List ExtendReq) (i : Nat) (r : ExtendReq) (p : Nat) : Nat :=
  pageStart ps batch i + (p / ps - pages ps r.prefixLen)

/-- `r` is the `i`-th request and `p` one of its positions. -/
structure At (batch : List ExtendReq) (i : Nat) (r : ExtendReq) (p : Nat) : Prop where
  get : batch[i]? = some r
  lower : r.prefixLen ≤ p
  upper : p < r.seqLen

/-- **The slots of a batch are right.** -/
structure CorrectSlots (ps : Nat) (free : List Nat) (batch : List ExtendReq) (out : List Nat) :
    Prop where
  length : out.length = numTokens batch
  /-- A position gets a slot at its offset. -/
  offset : ∀ {i r p}, At batch i r p → outAt batch out i r p % ps = p % ps
  /-- Consecutive positions of a page get consecutive slots of a page. -/
  consecutive : ∀ {i r p}, At batch i r p → At batch i r (p + 1) → (p + 1) / ps = p / ps →
    outAt batch out i r (p + 1) = outAt batch out i r p + 1 ∧
      outAt batch out i r (p + 1) / ps = outAt batch out i r p / ps
  /-- The first positions continue the page of the last slot. -/
  continues : ∀ {i r p last}, At batch i r p → r.lastLoc = some last → r.prefixLen % ps ≠ 0 →
    p / ps = (r.prefixLen - 1) / ps → outAt batch out i r p / ps = last / ps
  /-- The others are on pages from the front of the free list, -/
  fresh : ∀ {i r p}, At batch i r p → pages ps r.prefixLen ≤ p / ps →
    pageIndex ps batch i r p < getNumNewPages ps batch ∧
      free[pageIndex ps batch i r p]? = some (outAt batch out i r p / ps)
  /-- a different one for each page of each request, -/
  distinct : ∀ {i r p i' r' p'}, At batch i r p → pages ps r.prefixLen ≤ p / ps →
    At batch i' r' p' → pages ps r'.prefixLen ≤ p' / ps →
    pageIndex ps batch i r p = pageIndex ps batch i' r' p' → i = i' ∧ p / ps = p' / ps
  /-- and none of them is left out. -/
  used : ∀ k < getNumNewPages ps batch, ∃ i r p, At batch i r p ∧
    pages ps r.prefixLen ≤ p / ps ∧ pageIndex ps batch i r p = k

variable {ps : Nat} {batch : List ExtendReq} {free : List Nat} {i p : Nat} {r : ExtendReq}

/-- A new token lies on the page that the prefix has started, or on a page of its own request. -/
lemma At.page (hps : 0 < ps) (h : At batch i r p) :
    (r.prefixLen % ps ≠ 0 ∧ p / ps = r.prefixLen / ps ∧ p < pages ps r.prefixLen * ps) ∨
      (pages ps r.prefixLen ≤ p / ps ∧ ¬ p < pages ps r.prefixLen * ps) := by
  by_cases hlt : p < pages ps r.prefixLen * ps
  · have hlow := h.lower
    have hmod : r.prefixLen % ps ≠ 0 := by
      grind [pages_of_mod_eq_zero, Nat.div_mul_cancel, dvd_of_mod_eq_zero]
    refine .inl ⟨hmod, le_antisymm ?_ (Nat.div_le_div_right h.lower), hlt⟩
    rw [pages_of_mod_ne_zero hps hmod] at hlt
    exact Nat.lt_succ_iff.1 ((Nat.div_lt_iff_lt_mul hps).2 hlt)
  · exact .inr ⟨(Nat.le_div_iff_mul_le hps).2 (not_lt.1 hlt), hlt⟩

/-- The page a position was put on. -/
def ExtendReq.pageOf (ps : Nat) (free : List Nat) (r : ExtendReq) (p : Nat) : Nat :=
  if p < pages ps r.prefixLen * ps then r.nextLoc / ps
  else free.getD (p / ps - pages ps r.prefixLen) 0

/-- The slot of a token is on its page, at the offset of its position. -/
lemma slot_eq_page (hps : 0 < ps) (hloc : r.prefixLen % ps ≠ 0 → r.Located ps)
    (h : At batch i r p) : r.slot ps free p = r.pageOf ps free p * ps + p % ps := by
  rcases h.page hps with ⟨hmod, hpage, hlt⟩ | ⟨-, hge⟩
  · rw [slot_old hlt, pageOf, if_pos hlt]
    have hnext := div_add_mod' r.nextLoc ps
    have hp := div_add_mod' p ps
    have hpre := div_add_mod' r.prefixLen ps
    have hlow := h.lower
    rw [hloc hmod] at hnext
    rw [hpage] at hp
    omega
  · rw [slot, if_neg hge, pageOf, if_neg hge]

lemma outAt_extendSlots (h : At batch i r p) : outAt batch (extendSlots ps free batch) i r p =
    r.slot ps (free.drop (pageStart ps batch i)) p := by
  have hlow := h.lower
  have hup := h.upper
  rw [outAt, getD_extendSlots ps free h.get (by rw [extendLen]; omega), Nat.add_sub_cancel' hlow]

/-- The new pages of different requests are different ones of the free list. -/
lemma At.pageIndex_lt (hps : 0 < ps) (h : At batch i r p) (hnew : pages ps r.prefixLen ≤ p / ps) :
    pageStart ps batch i ≤ pageIndex ps batch i r p ∧
      pageIndex ps batch i r p < pageStart ps batch (i + 1) := by
  have hlt := div_lt_pages hps h.upper
  rw [pageStart_succ h.get, pageIndex, newPages]
  omega

lemma pageStart_mono {i' : Nat} (h : i ≤ i') : pageStart ps batch i ≤ pageStart ps batch i' := by
  have hsum := sum_take_add_sum_drop ((batch.take i').map (·.newPages ps)) i
  rw [← map_take, take_take, min_eq_left h] at hsum
  rw [pageStart, pageStart]
  omega

/-- **`extendSlots` hands out the right slots.**  The last slot matters only where its page is
continued. -/
theorem correct_extendSlots (hps : 0 < ps)
    (hloc : ∀ r ∈ batch, r.prefixLen % ps ≠ 0 → r.Located ps)
    (hfree : getNumNewPages ps batch ≤ free.length) :
    CorrectSlots ps free batch (extendSlots ps free batch) := by
  have hval : ∀ {i r p}, At batch i r p → outAt batch (extendSlots ps free batch) i r p =
      r.pageOf ps (free.drop (pageStart ps batch i)) p * ps + p % ps := fun h => by
    rw [outAt_extendSlots h, slot_eq_page hps (hloc _ (mem_of_getElem? h.get)) h]
  have hdiv : ∀ {i r p}, At batch i r p → outAt batch (extendSlots ps free batch) i r p / ps =
      r.pageOf ps (free.drop (pageStart ps batch i)) p := fun {i r p} h => by
    rw [hval h, page_mul_add (mod_lt p hps)]
  have hindex : ∀ {i r p}, At batch i r p → pages ps r.prefixLen ≤ p / ps →
      pageIndex ps batch i r p < getNumNewPages ps batch := fun h hnew =>
    lt_of_lt_of_le (h.pageIndex_lt hps hnew).2 (by
      rw [← pageStart_length]
      exact pageStart_mono (List.getElem?_eq_some_iff.1 h.get).1)
  refine ⟨length_extendSlots ps batch free, fun h => ?_, fun {i r p} h h' hsame => ?_,
    fun {i r p last} h hlast hmod hpage => ?_, fun {i r p} h hnew => ⟨hindex h hnew, ?_⟩,
    fun {i r p i' r' p'} h hnew h' hnew' heq => ?_, fun k hk => ?_⟩
  · rw [hval h, mul_add_mod', mod_mod]
  · -- On one page the two positions are on the same side of the old page's end.
    have hpage : r.pageOf ps (free.drop (pageStart ps batch i)) (p + 1) =
        r.pageOf ps (free.drop (pageStart ps batch i)) p := by
      simp [← Nat.div_lt_iff_lt_mul hps, hsame, pageOf]
    have hmod : (p + 1) % ps = p % ps + 1 := by
      grind [div_add_mod']
    refine ⟨?_, ?_⟩
    · rw [hval h', hval h, hpage, hmod, add_assoc]
    · rw [hdiv h', hdiv h, hpage]
  · have hnext : r.nextLoc = last + 1 := by rw [nextLoc, hlast]; rfl
    have hloc := hloc r (mem_of_getElem? h.get) hmod
    have hpos : r.prefixLen - 1 + 1 = r.prefixLen := by
      have : r.prefixLen ≠ 0 := fun hzero => hmod (by rw [hzero, zero_mod])
      omega
    have hpre : (r.prefixLen - 1) / ps = r.prefixLen / ps := by
      grind [succ_of_mod_ne_zero]
    have hlast' : last / ps = r.nextLoc / ps := by
      rw [hnext]
      refine (succ_of_mod_ne_zero ?_).1.symm
      rw [← hnext, hloc]
      exact hmod
    have hlt : p < pages ps r.prefixLen * ps := by
      rw [← Nat.div_lt_iff_lt_mul hps, hpage, hpre, pages_of_mod_ne_zero hps hmod]
      omega
    rw [hdiv h, pageOf, if_pos hlt, hlast']
  · have hge : ¬ p < pages ps r.prefixLen * ps :=
      not_lt.2 ((Nat.le_div_iff_mul_le hps).1 hnew)
    rw [hdiv h, pageOf, if_neg hge, getD_drop,
      List.getElem?_eq_getElem (lt_of_lt_of_le (hindex h hnew) hfree)]
    exact congrArg some (getD_eq_getElem _ _ _).symm
  · have hb := h.pageIndex_lt hps hnew
    have hb' := h'.pageIndex_lt hps hnew'
    have hi : i = i' := by
      rcases Nat.lt_trichotomy i i' with hlt | heq | hlt
      · have : pageStart ps batch (i + 1) ≤ pageStart ps batch i' := pageStart_mono hlt
        omega
      · exact heq
      · have : pageStart ps batch (i' + 1) ≤ pageStart ps batch i := pageStart_mono hlt
        omega
    subst hi
    obtain rfl := Option.some_inj.1 (h.get.symm.trans h'.get)
    rw [pageIndex, pageIndex] at heq
    exact ⟨rfl, by omega⟩
  · obtain ⟨i, r, j, hi, hj, rfl⟩ := exists_of_lt_sum (·.newPages ps) hk
    replace hj : j < pages ps r.seqLen - pages ps r.prefixLen := hj
    have hlt := (lt_pages_iff hps).1 (show pages ps r.prefixLen + j < pages ps r.seqLen by omega)
    have hpage : ps * (pages ps r.prefixLen + j) / ps = pages ps r.prefixLen + j :=
      Nat.mul_div_cancel_left _ hps
    refine ⟨i, r, ps * (pages ps r.prefixLen + j), ⟨hi, ?_, hlt⟩, ?_, ?_⟩
    · exact le_trans (le_mul_pages hps r.prefixLen) (Nat.mul_le_mul_left ps (by omega))
    · omega
    · rw [pageIndex, hpage, Nat.add_sub_cancel_left, pageStart]

/-! ## The methods -/

/-- `q` is `p` without the pages `taken`, up to the order of the free pages and whether they are
staged. -/
structure Took (p q : Pool) (taken : List Nat) : Prop where
  pageSize : q.pageSize = p.pageSize
  needSort : q.needSort = p.needSort
  size : q.size = p.size
  freeGroup : q.freeGroup = p.freeGroup
  freePageIdsGroup : q.freePageIdsGroup = p.freePageIdsGroup
  allFree : (taken ++ q.allFree).Perm p.allFree
  staged : p.stagedPages = [] → q.stagedPages = []

lemma Took.refl (p : Pool) : Took p p [] := ⟨rfl, rfl, rfl, rfl, rfl, .refl _, id⟩

lemma stagedPages_mergeAndSortFree (p : Pool) : p.mergeAndSortFree.stagedPages = [] := by
  grind [mergeAndSortFree]

lemma took_mergeAndSortFree (p : Pool) : Took p p.mergeAndSortFree [] := by
  rw [mergeAndSortFree]
  split
  · exact .refl p
  refine ⟨rfl, rfl, rfl, rfl, rfl, ?_, fun _ => rfl⟩
  show (p.allFree.mergeSort (· ≤ ·) ++ []).Perm p.allFree
  rw [append_nil]
  exact mergeSort_perm _ _

lemma took_mergeFor (p : Pool) (n : Nat) : Took p (p.mergeFor n) [] := by
  rw [mergeFor]
  split
  · exact took_mergeAndSortFree p
  · exact .refl p

/-- Once merged for `n`, a pool has `n` pages at hand, or all of its free ones. -/
lemma mergeFor_room (p : Pool) (n : Nat) : n ≤ (p.mergeFor n).freePages.length ∨
    (p.mergeFor n).freePages.length = p.allFree.length := by
  by_cases h : p.freePages.length < n
  · have hperm := (took_mergeFor p n).allFree.length_eq
    rw [nil_append, mergeFor, if_pos h, allFree, stagedPages_mergeAndSortFree,
      flatten_nil, append_nil] at hperm
    rw [mergeFor, if_pos h]
    exact .inr hperm
  · simp_all [mergeFor, if_neg h]

/-- How every allocation ends: take `n` pages from the front and return `out`, or take nothing. -/
def Pool.take (q : Pool) (n : Nat) (out : List Nat) : Option (List Nat) × Pool :=
  if q.freePages.length < n then (none, q)
  else (some out, { q with freePages := q.freePages.drop n })

variable {q : Pool}

/-- Taking pages that are there. -/
lemma took_take {n : Nat} (h : n ≤ q.freePages.length) (out : List Nat) :
    ∃ q', q.take n out = (some out, q') ∧ Took q q' (q.freePages.take n) ∧
      q'.freePages = q.freePages.drop n := by
  refine ⟨_, if_neg (not_lt.2 h), ⟨rfl, rfl, rfl, rfl, rfl, ?_, id⟩, rfl⟩
  show (q.freePages.take n ++ (q.freePages.drop n ++ q.stagedPages.flatten)).Perm q.allFree
  rw [← append_assoc, take_append_drop, allFree]

lemma Took.trans {p q' : Pool} {taken : List Nat} (h : Took p q []) (h' : Took q q' taken) :
    Took p q' taken :=
  ⟨h'.pageSize.trans h.pageSize, h'.needSort.trans h.needSort, h'.size.trans h.size,
    h'.freeGroup.trans h.freeGroup, h'.freePageIdsGroup.trans h.freePageIdsGroup,
    h'.allFree.trans h.allFree, fun hs => h'.staged (h.staged hs)⟩

/-- **A pool takes what it has**: merged for at least `n` pages, it fails only when fewer are
free. -/
theorem take_cases (p : Pool) {w n : Nat} (hw : n ≤ w) (out : List Nat) :
    (p.allFree.length < n ∧ (p.mergeFor w).take n out = (none, p.mergeFor w)) ∨
    (n ≤ p.allFree.length ∧ n ≤ (p.mergeFor w).freePages.length ∧
      ∃ q, (p.mergeFor w).take n out = (some out, q) ∧
        Took p q ((p.mergeFor w).freePages.take n)) := by
  have hroom := mergeFor_room p w
  have hperm := (took_mergeFor p w).allFree.length_eq
  have hle : (p.mergeFor w).freePages.length ≤ (p.mergeFor w).allFree.length := by
    simp [allFree]
  rw [nil_append] at hperm
  by_cases h : (p.mergeFor w).freePages.length < n
  · exact .inl ⟨by omega, if_pos h⟩
  · obtain ⟨q, htake, htook, -⟩ := took_take (not_lt.1 h) out
    exact .inr ⟨by omega, not_lt.1 h, q, htake, (took_mergeFor p w).trans htook⟩

/-- `alloc_extend` is a merge, if the free list may be too short, and then a cut of the free list.
-/
lemma allocExtend_eq {n : Option Nat} (hps : 0 < q.pageSize) (batch : List ExtendReq)
    (hn : n.getD (getNumNewPages q.pageSize batch) = getNumNewPages q.pageSize batch) :
    q.allocExtend batch (numTokens batch) n =
      (q.mergeFor (numTokens batch / q.pageSize + batch.length + 1)).take
        (getNumNewPages q.pageSize batch) (extendSlots q.pageSize
          (q.mergeFor (numTokens batch / q.pageSize + batch.length + 1)).freePages batch) := by
  have hpage := (took_mergeFor q (numTokens batch / q.pageSize + batch.length + 1)).pageSize
  simp only [Pool.allocExtend, Pool.take]
  rw [hpage, hn, launched, launch_allocExtendKernel hps batch _ (List.Perm.refl _)]

lemma allocDecode_eq (hps : 0 < q.pageSize) (hone : OneToken batch) :
    q.allocDecode batch = (q.mergeFor batch.length).take (getNumNewPagesDecode q.pageSize batch)
      (extendSlots q.pageSize (q.mergeFor batch.length).freePages batch) := by
  have hpage := (took_mergeFor q batch.length).pageSize
  simp only [Pool.allocDecode, Pool.take]
  rw [hpage, launched, launch_allocDecodeKernel hps hone _ (List.Perm.refl _)]

/-- A decoded token starts a page exactly if it is the first one on it. -/
lemma newPages_of_succ (hps : 2 ≤ ps) (h : r.prefixLen + 1 = r.seqLen) :
    r.newPages ps = if r.seqLen % ps = 1 then 1 else 0 := by
  have hpos : 0 < ps := by omega
  have hpre := div_add_mod' r.prefixLen ps
  have hlt := mod_lt r.prefixLen hpos
  rw [newPages, ← h]
  by_cases hzero : r.prefixLen % ps = 0
  · have hmod : (r.prefixLen + 1) % ps = 1 := by
      rw [add_mod, hzero, zero_add, mod_mod, mod_eq_of_lt (by omega)]
    have hdiv : (r.prefixLen + 1) / ps = r.prefixLen / ps :=
      succ_div_of_not_dvd fun hdvd => absurd (mod_eq_zero_of_dvd hdvd) (by omega)
    rw [if_pos hmod, pages_of_mod_eq_zero hpos hzero, pages_of_mod_ne_zero hpos (by omega), hdiv]
    omega
  · have hsame : pages ps (r.prefixLen + 1) ≤ pages ps r.prefixLen := by
      rw [pages_le_iff hpos, pages_of_mod_ne_zero hpos hzero, mul_add, mul_comm]
      omega
    have hmod : (r.prefixLen + 1) % ps ≠ 1 := by
      rw [add_mod, mod_eq_of_lt (show 1 < ps by omega)]
      by_cases hfull : r.prefixLen % ps + 1 = ps
      · simp_all
      · rw [mod_eq_of_lt (by omega)]
        omega
    rw [if_neg hmod]
    omega

/-- From two slots a page on, a decode step counts the pages it takes. -/
lemma getNumNewPagesDecode_eq (hps : 2 ≤ ps) : ∀ {batch}, OneToken batch →
    getNumNewPagesDecode ps batch = getNumNewPages ps batch
  | [], _ => rfl
  | r :: batch, hone => by
    have ih := getNumNewPagesDecode_eq hps fun r' hr' => hone r' (mem_cons_of_mem r hr')
    rw [getNumNewPages, map_cons, sum_cons,
      newPages_of_succ hps (hone r mem_cons_self), ← getNumNewPages, ← ih,
      getNumNewPagesDecode, getNumNewPagesDecode, countP_cons, add_comm]
    simp only [decide_eq_true_eq]

/-- When the two methods see the same free list: nothing waits to be merged, or both merge, or
neither does. -/
def Pool.MergesAlike (q : Pool) (bs : Nat) : Prop :=
  q.stagedPages = [] ∨ q.freePages.length < bs ∨ bs / q.pageSize + bs < q.freePages.length

/-- The two estimates of `alloc_decode` and `alloc_extend` merge in the same cases here. -/
lemma mergeFor_of_mergesAlike {bs : Nat} (h : q.MergesAlike bs) :
    q.mergeFor bs = q.mergeFor (bs / q.pageSize + bs + 1) := by
  grind [mergeFor, Pool.MergesAlike, mergeAndSortFree]

/-- **Paged allocation assigns correct slots.**  An `alloc_extend` that succeeds hands out the right
slots, from the front of the free list that merging leaves; the kernel computes them in every order
of its programs, and so do the vector operations.  With two slots a page or more, an `alloc_decode`
that succeeds hands out the right slots too, and it does what `alloc_extend` does for one token a
request, as long as the two merge the staged pages alike. -/
theorem alloc_extend_correct (q : Pool) (hps : 0 < q.pageSize) (batch : List ExtendReq)
    (hloc : ∀ r ∈ batch, r.Located q.pageSize) :
    (∀ out q', q.allocExtend batch (numTokens batch) none = (some out, q') →
      ∃ free, free = (q.mergeFor (numTokens batch / q.pageSize + batch.length + 1)).freePages ∧
        CorrectSlots q.pageSize free batch out ∧ getNumNewPages q.pageSize batch ≤ free.length ∧
        q'.freePages = free.drop (getNumNewPages q.pageSize batch) ∧ (free.Nodup → ∀ i r p i' r' p',
          At batch i r p → pages q.pageSize r.prefixLen ≤ p / q.pageSize →
          At batch i' r' p' → pages q.pageSize r'.prefixLen ≤ p' / q.pageSize →
          outAt batch out i r p / q.pageSize = outAt batch out i' r' p' / q.pageSize →
          i = i' ∧ p / q.pageSize = p' / q.pageSize) ∧
        allocExtendNaive batch free (numTokens batch) q.pageSize = .ok out ∧
        ∀ (order : List Nat) (mem : Nat → Nat), order.Perm (range batch.length) →
          (range (numTokens batch)).map (launch (allocExtendKernel batch free
            (nextPowerOf2 batch.length) q.pageSize) order mem) = out) ∧
    (2 ≤ q.pageSize → OneToken batch → (∀ out q', q.allocDecode batch = (some out, q') →
        CorrectSlots q.pageSize (q.mergeFor batch.length).freePages batch out ∧
        q'.freePages = (q.mergeFor batch.length).freePages.drop (getNumNewPages q.pageSize batch)) ∧
      (q.MergesAlike batch.length →
        q.allocDecode batch = q.allocExtend batch batch.length none)) := by
  refine ⟨fun out q' h => ?_, fun htwo hone => ⟨fun out q' h => ?_, fun hmerge => ?_⟩⟩
  · rw [allocExtend_eq hps batch rfl, Pool.take] at h
    generalize q.mergeFor (numTokens batch / q.pageSize + batch.length + 1) = m at h
    split at h
    · exact absurd (congrArg Prod.fst h) (by simp)
    rename_i hroom
    rw [not_lt] at hroom
    obtain ⟨rfl, rfl⟩ := h
    have hcorrect := correct_extendSlots hps (fun r hr _ => hloc r hr) hroom
    refine ⟨m.freePages, rfl, hcorrect, hroom, rfl, fun hnodup i r p i' r' p' h hn h' hn' heq => ?_,
      allocExtendNaive_eq hps hroom, fun order mem horder =>
        launch_allocExtendKernel hps batch m.freePages horder mem⟩
    obtain ⟨hlt, hget⟩ := hcorrect.fresh h hn
    have hget' := (hcorrect.fresh h' hn').2
    rw [← heq, ← hget] at hget'
    exact hcorrect.distinct h hn h' hn'
      ((getElem?_inj (lt_of_lt_of_le hlt hroom) hnodup).1 hget'.symm)
  · rw [allocDecode_eq hps hone, getNumNewPagesDecode_eq htwo hone, Pool.take] at h
    split at h
    · exact absurd (congrArg Prod.fst h) (by simp)
    rename_i hroom
    obtain ⟨rfl, rfl⟩ := h
    exact ⟨correct_extendSlots hps (fun r hr _ => hloc r hr) (not_lt.1 hroom), rfl⟩
  · have hlen := numTokens_of_oneToken hone
    have hext := allocExtend_eq (n := none) hps batch rfl
    rw [hlen] at hext
    rw [allocDecode_eq hps hone, getNumNewPagesDecode_eq htwo hone, hext,
      mergeFor_of_mergesAlike hmerge]

/-- A pool of ten pages of four, one page at hand and one freed since the last merge. -/
def stagedPool : Pool where
  pageSize := 4
  needSort := true
  size := 40
  freePages := [5]
  stagedPages := [[2]]
  freeGroup := none
  freePageIdsGroup := []

/-- Two requests, one that continues a page and one that starts. -/
def twoRequests : List ExtendReq := [⟨3, 9, some 10, by decide⟩, ⟨0, 2, none, by decide⟩]

/-- A pool that need not merge for them. -/
def readyPool : Pool := { stagedPool with freePages := [5, 7, 3, 8, 9, 10] }

theorem alloc_extend_correct_twoRequests :
    readyPool.allocExtend twoRequests 8 none =
        (some [11, 20, 21, 22, 23, 28, 12, 13], { readyPool with freePages := [8, 9, 10] }) ∧
      CorrectSlots 4 [5, 7, 3, 8, 9, 10] twoRequests [11, 20, 21, 22, 23, 28, 12, 13] := by
  have hrun : readyPool.allocExtend twoRequests 8 none =
      (some [11, 20, 21, 22, 23, 28, 12, 13], { readyPool with freePages := [8, 9, 10] }) :=
    (allocExtend_eq (by decide) twoRequests rfl).trans rfl
  obtain ⟨free, rfl, hcorrect, -⟩ :=
    (alloc_extend_correct readyPool (by decide) twoRequests (by decide)).1 _ _ hrun
  exact ⟨hrun, hcorrect⟩

/-- **A decode step is not always an extension by one token.**  With a page at hand `alloc_decode`
leaves the staged pages alone, while `alloc_extend` merges them and takes the smallest; and with
pages of one slot `alloc_decode` takes no page at all. -/
theorem alloc_decode_is_not_alloc_extend :
    (stagedPool.allocDecode [⟨4, 5, some 7, by decide⟩]).1 = some [20] ∧
    (stagedPool.allocExtend [⟨4, 5, some 7, by decide⟩] 1 none).1 = some [8] ∧
    ({ stagedPool with pageSize := 1 }.allocDecode [⟨4, 5, some 7, by decide⟩]).1 = some [5] ∧
    ({ stagedPool with pageSize := 1 }.allocDecode [⟨4, 5, some 7, by decide⟩]).2.freePages =
      [5] := by
  refine ⟨by decide +kernel, ?_, by decide +kernel, by decide +kernel⟩
  have hmerge : stagedPool.mergeFor 2 =
      { stagedPool with freePages := [2, 5], stagedPages := [] } := by
    simp [mergeFor, mergeAndSortFree, allFree, stagedPool, mergeSort,
      List.MergeSort.Internal.splitInTwo]
  have hrun := allocExtend_eq (q := stagedPool) (n := none) (by decide)
    [⟨4, 5, some 7, by decide⟩] rfl
  rw [show numTokens [⟨4, 5, some 7, by decide⟩] = 1 from rfl,
    show 1 / stagedPool.pageSize + [(⟨4, 5, some 7, by decide⟩ : ExtendReq)].length + 1 = 2
      from rfl, hmerge] at hrun
  rw [hrun]
  rfl

end Sglang.Alloc
