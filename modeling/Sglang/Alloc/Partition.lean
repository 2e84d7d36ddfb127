import Sglang.Alloc.Held

/-!
# Where every page is

A page of a pool is free, staged, named by a call of the open free group, or lent.  `free` folds the
slots it is given to pages, and what several calls name in one group is folded together, so it may
name a page as often as it likes.  `free_page_ids` and `free_segment` do not look: within a group, a
page they name must not be named again.

* `Kept.step`: each call keeps every page in one place, if its caller keeps to `Permits`.
* `pages_partitioned`: so it is in every run.
* `page_named_twice_is_free_twice`: a page that two calls of one group name is free twice.
-/

namespace Sglang.Alloc
open Lib List Pool Option

variable {ps : Nat} {p q : Pool} {idx ids lent : List Nat}

/-! ## The calls -/

/-- The calls of a pool. -/
inductive PoolCall
  | alloc (needSize : Nat)
  | allocExtend (batch : List ExtendReq) (numNewPages : Option Nat)
  | allocDecode (batch : List ExtendReq)
  | free (freeIndex : List Nat)
  | freeSegment (freeIndex : List Nat) (startPos : Nat)
  | freePageIds (pageIds : List Nat)
  | freeGroupBegin
  | freeGroupEnd
  | mergeAndSortFree
  | clear

/-- A call, with the slots it returns. -/
def Pool.call (p : Pool) : PoolCall → Except AllocFault (Option (List Nat) × Pool)
  | .alloc needSize => .ok (p.alloc needSize)
  | .allocExtend batch numNewPages => .ok (p.allocExtend batch (numTokens batch) numNewPages)
  | .allocDecode batch => .ok (p.allocDecode batch)
  | .free freeIndex => .ok (none, p.free freeIndex)
  | .freeSegment freeIndex startPos => (p.freeSegment freeIndex startPos).map (none, ·)
  | .freePageIds pageIds => .ok (none, p.freePageIds pageIds)
  | .freeGroupBegin => p.freeGroupBegin.map (none, ·)
  | .freeGroupEnd => .ok (none, p.freeGroupEnd)
  | .mergeAndSortFree => .ok (none, p.mergeAndSortFree)
  | .clear => .ok (none, .clear p.pageSize p.needSort p.size)

/-- A pool and the pages that are lent. -/
structure Lender where
  pool : Pool
  lent : List Nat

namespace Lender

/-- What is lent after a call that returned `out`. -/
def lentAfter (σ : Lender) (out : Option (List Nat)) : PoolCall → List Nat
  | .alloc _ | .allocExtend _ _ | .allocDecode _ =>
    σ.lent ++ (pagesOf σ.pool.pageSize (out.getD [])).filter (· ∉ σ.lent)
  | .free idx | .freeSegment idx _ => withoutPagesOf σ.pool.pageSize σ.lent idx
  | .freePageIds ids => σ.lent.filter (· ∉ ids)
  | .freeGroupBegin | .freeGroupEnd | .mergeAndSortFree => σ.lent
  | .clear => []

/-- One call. -/
def step (σ : Lender) (c : PoolCall) : Option Lender :=
  (σ.pool.call c).toOption.map fun res => ⟨res.2, σ.lentAfter res.1 c⟩

end Lender

/-! ## Where a page is -/

namespace Lender

/-- **Every page is in one place**: free, staged, waiting in the open group, or lent. -/
structure Partitioned (σ : Lender) : Prop where
  pages : (σ.pool.freePages ++ σ.pool.stagedPages.flatten ++ σ.pool.waiting ++ σ.lent).Perm
    (range' 1 σ.pool.numPages)
  available : σ.pool.availableSize =
    (σ.pool.freePages.length + σ.pool.stagedPages.flatten.length) * σ.pool.pageSize
  le_size : σ.pool.availableSize ≤ σ.pool.size

/-- A batch that continues lent pages only. -/
def MayExtend (σ : Lender) (batch : List ExtendReq) : Prop :=
  ∀ r ∈ batch, r.prefixLen % σ.pool.pageSize ≠ 0 → ∃ last, Continues σ.pool.pageSize σ.lent r last

/-- **What callers keep to.**  `free` may name a page that the slots of the open group name already;
`free_page_ids` and `free_segment` take pages that are still lent, each once. -/
def Permits (σ : Lender) : PoolCall → Prop
  | .allocExtend batch numNewPages => σ.MayExtend batch ∧
      ∀ n ∈ numNewPages, n = getNumNewPages σ.pool.pageSize batch
  | .allocDecode batch => σ.MayExtend batch ∧ OneToken batch
  | .free idx => ∀ x ∈ idx, x / σ.pool.pageSize ∈ σ.lent ∨ x / σ.pool.pageSize ∈ σ.pool.namedPages
  | .freeSegment idx _ => Segment σ.pool.pageSize σ.lent idx
  | .freePageIds ids => ids.Nodup ∧ ∀ a ∈ ids, a ∈ σ.lent
  | _ => True

end Lender

/-! ## What each call does -/

/-- The ledger of a pool. -/
structure Kept (ps size : Nat) (p : Pool) (lent : List Nat) : Prop where
  pageSize_eq : p.pageSize = ps
  size_eq : p.size = size
  closed : p.freeGroup = none → p.freePageIdsGroup = []
  pages : (p.allFree ++ (p.waiting ++ lent)).Perm (range' 1 (size / ps))

namespace Kept
variable {size : Nat} (h : Kept ps size p lent)
include h

lemma nodup : (p.allFree ++ (p.waiting ++ lent)).Nodup := h.pages.nodup_iff.2 nodup_range'

lemma lent_nodup : lent.Nodup := by
  have hnodup := h.nodup
  rw [← append_assoc] at hnodup
  exact hnodup.of_append_right

/-- Pages that are taken are lent. -/
lemma took {taken lent' : List Nat} (htook : Took p q taken) (hlent : lent'.Perm (lent ++ taken)) :
    Kept ps size q lent' := by
  have hwait : q.waiting = p.waiting := by
    simp [waiting, namedPages, htook.pageSize, htook.freeGroup, htook.freePageIdsGroup]
  refine ⟨htook.pageSize.trans h.pageSize_eq, htook.size.trans h.size_eq, fun hno => ?_, ?_⟩
  · rw [htook.freePageIdsGroup]
    exact h.closed (htook.freeGroup.symm.trans hno)
  · refine List.Perm.trans ?_ h.pages
    have hall := htook.allFree
    rw [hwait]
    rw [← Multiset.coe_eq_coe] at hall hlent ⊢
    simp only [← Multiset.coe_add] at hall hlent ⊢
    rw [hlent, ← hall]
    abel

/-- Pages that go to a free list are lent no more. -/
lemma released (hnodup : ids.Nodup) (hsub : ∀ a ∈ ids, a ∈ lent) :
    Kept ps size (p.releasePageIds ids) (lent.filter (· ∉ ids)) := by
  obtain ⟨hpage, hsize, hgroup, hids⟩ := releasePageIds_frame p ids
  have hwait : (p.releasePageIds ids).waiting = p.waiting := by
    rw [waiting, waiting, namedPages, namedPages, hpage, hgroup, hids]
  refine ⟨hpage.trans h.pageSize_eq, hsize.trans h.size_eq, fun hno => ?_, ?_⟩
  · rw [hids]
    exact h.closed (hgroup.symm.trans hno)
  · refine List.Perm.trans ?_ h.pages
    have hall := allFree_releasePageIds p ids
    have hlent := perm_append_filter h.lent_nodup hnodup hsub
    rw [hwait]
    rw [← Multiset.coe_eq_coe] at hall hlent ⊢
    simp only [← Multiset.coe_add] at hall hlent ⊢
    rw [hall, ← hlent]
    abel

lemma freePageIds (hps : ps ≠ 1) (hnodup : ids.Nodup) (hsub : ∀ a ∈ ids, a ∈ lent) :
    Kept ps size (p.freePageIds ids) (lent.filter (· ∉ ids)) := by
  rw [Pool.freePageIds]
  split
  · simp_all
  rw [if_neg (h.pageSize_eq ▸ hps)]
  split
  · exact h.released hnodup hsub
  rename_i group hgroup
  refine ⟨h.pageSize_eq, h.size_eq, fun hno => absurd hno (by rw [hgroup]; simp), ?_⟩
  refine List.Perm.trans ?_ h.pages
  have hlent := perm_append_filter h.lent_nodup hnodup hsub
  show (p.allFree ++ (p.namedPages ++ (p.freePageIdsGroup ++ [ids]).flatten ++ _)).Perm
    (p.allFree ++ (p.namedPages ++ p.freePageIdsGroup.flatten ++ lent))
  rw [flatten_append, flatten_singleton]
  rw [← Multiset.coe_eq_coe] at hlent ⊢
  simp only [← Multiset.coe_add] at hlent ⊢
  rw [← hlent]
  abel

/-- `free` may name a page that another call of the open group has named. -/
lemma free (hps : ps ≠ 1) (hsub : ∀ x ∈ idx, x / ps ∈ lent ∨ x / ps ∈ p.namedPages) :
    Kept ps size (p.free idx) (withoutPagesOf ps lent idx) := by
  have hfold : ∀ l, (pagesOf ps l).Nodup := fun l =>
    nodup_pagesOf fun hone => absurd hone hps
  rw [Pool.free]
  split
  · simp_all [withoutPagesOf, pagesOf_nil]
  split
  · rename_i hno
    have hin : ∀ a ∈ pagesOf ps idx, a ∈ lent := fun a ha => by
      obtain ⟨x, hx, rfl⟩ := mem_pagesOf.1 ha
      refine (hsub x hx).resolve_right fun hnamed => ?_
      rw [namedPages, hno, getD_none, flatten_nil, pagesOf_nil] at hnamed
      exact absurd hnamed not_mem_nil
    rw [h.pageSize_eq]
    exact h.released (hfold idx) hin
  · rename_i group hgroup
    refine ⟨h.pageSize_eq, h.size_eq, fun hnone => (by cases hnone), ?_⟩
    refine List.Perm.trans ?_ h.pages
    have hnamed : p.namedPages = pagesOf ps group.flatten := by
      rw [namedPages, hgroup, h.pageSize_eq]
      rfl
    have hnodup := h.nodup.of_append_right
    rw [waiting, hnamed] at hnodup
    -- Both sides hold the same pages, once each.
    have hslots : (pagesOf ps (group ++ [idx]).flatten ++ withoutPagesOf ps lent idx).Perm
        (pagesOf ps group.flatten ++ lent) := by
      have hold : (pagesOf ps group.flatten ++ lent).Nodup :=
        hnodup.sublist ((sublist_append_left _ _).append (List.Sublist.refl _))
      rw [flatten_append, flatten_singleton]
      have hmem : ∀ a, a ∈ pagesOf ps (group.flatten ++ idx) ↔
          a ∈ pagesOf ps group.flatten ∨ a ∈ pagesOf ps idx := fun a => by
        simp only [mem_pagesOf, mem_append, or_and_right, exists_or]
      have hidx : ∀ a ∈ pagesOf ps idx, a ∈ lent ∨ a ∈ pagesOf ps group.flatten := fun a ha => by
        obtain ⟨x, hx, rfl⟩ := mem_pagesOf.1 ha
        exact hnamed ▸ hsub x hx
      refine (perm_ext_iff_of_nodup (nodup_append.2 ⟨hfold _, ?_, ?_⟩) hold).2 ?_
      · exact h.lent_nodup.filter _
      · grind [withoutPagesOf]
      · intro a
        rw [mem_append, mem_append, hmem, withoutPagesOf, mem_filter, decide_eq_true_eq]
        constructor
        · grind
        · grind
    show (p.allFree ++ (pagesOf p.pageSize (group ++ [idx]).flatten ++ p.freePageIdsGroup.flatten ++
      _)).Perm (p.allFree ++ (p.namedPages ++ p.freePageIdsGroup.flatten ++ lent))
    rw [hnamed, h.pageSize_eq]
    rw [← Multiset.coe_eq_coe] at hslots ⊢
    simp only [← Multiset.coe_add] at hslots ⊢
    rw [add_right_comm, hslots]
    abel

lemma freeGroupBegin (hq : p.freeGroupBegin = .ok q) : Kept ps size q lent := by
  rw [Pool.freeGroupBegin] at hq
  split at hq
  · cases hq
  rename_i hno
  cases hq
  refine ⟨h.pageSize_eq, h.size_eq, fun hnone => (by cases hnone), ?_⟩
  have hpages := h.pages
  rw [waiting, namedPages, hno, h.closed hno] at hpages
  exact hpages

/-- Closing a group frees what it has named, each page once. -/
lemma freeGroupEnd : Kept ps size p.freeGroupEnd lent := by
  obtain ⟨hpage, hsize, hgroup, hids, hall⟩ := settled_freeGroupEnd p
  refine ⟨hpage.trans h.pageSize_eq, hsize.trans h.size_eq, fun _ => hids, ?_⟩
  refine List.Perm.trans ?_ h.pages
  have hwait : p.freeGroupEnd.waiting = [] := by
    rw [waiting, namedPages, hgroup, hids, getD_none, flatten_nil, pagesOf_nil]
    rfl
  rw [hwait, nil_append]
  rw [← Multiset.coe_eq_coe] at hall ⊢
  simp only [← Multiset.coe_add] at hall ⊢
  rw [hall]
  abel

/-- A segment covers whole pages, so its pages are given back whole. -/
lemma freeSegment {startPos : Nat} (hps : ps ≠ 1) (hpos : 0 < ps) (hseg : Segment ps lent idx)
    (hq : p.freeSegment idx startPos = .ok q) : Kept ps size q (withoutPagesOf ps lent idx) := by
  have hlent : withoutPagesOf ps lent idx = lent.filter (· ∉ segmentPages ps idx) :=
    filter_congr fun a _ => decide_eq_decide.2 (not_congr (hseg.mem_pages hpos)).symm
  rw [Pool.freeSegment, if_neg (h.pageSize_eq ▸ hps)] at hq
  rw [hlent]
  split at hq
  · simp_all [segmentPages_nil]
  split at hq
  · cases hq
  cases hq
  have hids := h.freePageIds hps hseg.nodup hseg.lent
  rw [h.pageSize_eq]
  exact hids

/-! ## Allocations -/

lemma take (w n : Nat) {out : List Nat} (hps : ps ≠ 1)
    (hout : n ≤ (p.mergeFor w).freePages.length →
      (∀ x ∈ out, x / ps ∈ lent ∨ x / ps ∈ (p.mergeFor w).freePages.take n) ∧
        ∀ a ∈ (p.mergeFor w).freePages.take n, ∃ x ∈ out, x / ps = a) :
    Kept ps size ((p.mergeFor w).take n out).2
      (lent ++ (pagesOf ps (((p.mergeFor w).take n out).1.getD [])).filter (· ∉ lent)) := by
  by_cases hroom : (p.mergeFor w).freePages.length < n
  · have hnone : (p.mergeFor w).take n out = (none, p.mergeFor w) := if_pos hroom
    rw [hnone, getD_none, pagesOf_nil, filter_nil]
    exact h.took (took_mergeFor p w) (.refl _)
  · obtain ⟨q, htake, htook, -⟩ := took_take (not_lt.1 hroom) out
    have htook := (took_mergeFor p w).trans htook
    obtain ⟨hin, hall⟩ := hout (not_lt.1 hroom)
    have hnodup : (lent ++ (p.mergeFor w).freePages.take n).Nodup := by
      have hkept := (h.took htook (.refl _)).nodup
      rw [← append_assoc] at hkept
      exact hkept.of_append_right
    rw [htake]
    refine h.took htook (List.Perm.append_left lent ?_)
    exact newPages_perm hnodup (fun hone => absurd hone hps) hin hall

lemma alloc (hps : ps ≠ 1) (hpos : 0 < ps) (needSize : Nat) :
    Kept ps size (p.alloc needSize).2
      (lent ++ (pagesOf ps ((p.alloc needSize).1.getD [])).filter (· ∉ lent)) := by
  have hpage := (took_mergeFor p (needSize / p.pageSize)).pageSize.trans h.pageSize_eq
  have heq : p.alloc needSize = (p.mergeFor (needSize / p.pageSize)).take (needSize / p.pageSize)
      (((p.mergeFor (needSize / p.pageSize)).freePages.take (needSize / p.pageSize)).flatMap
        fun page => (range ps).map fun i => page * ps + i) := by
    rw [← hpage]
    rfl
  rw [heq]
  refine h.take _ _ hps fun _ => ⟨fun x hx => .inr ?_, fun a ha => ⟨a * ps, ?_, ?_⟩⟩
  · grind [page_mul_add]
  · exact mem_flatMap.2 ⟨a, ha, mem_map.2 ⟨0, mem_range.2 hpos, rfl⟩⟩
  · exact Nat.mul_div_cancel a hpos

variable {batch : List ExtendReq}
  (hcont : ∀ r ∈ batch, r.prefixLen % ps ≠ 0 → ∃ last, Continues ps lent r last)
include hcont

lemma allocExtend (hps : ps ≠ 1) (hpos : 0 < ps) {numNewPages : Option Nat}
    (hnum : ∀ n ∈ numNewPages, n = getNumNewPages ps batch) :
    Kept ps size (p.allocExtend batch (numTokens batch) numNewPages).2 (lent ++ (pagesOf ps
      ((p.allocExtend batch (numTokens batch) numNewPages).1.getD [])).filter (· ∉ lent)) := by
  obtain rfl := h.pageSize_eq
  have hcount : numNewPages.getD (getNumNewPages p.pageSize batch) =
      getNumNewPages p.pageSize batch := by
    cases numNewPages with
    | none => rfl
    | some n => exact hnum n rfl
  rw [allocExtend_eq hpos batch hcount]
  refine h.take _ _ hps fun hroom => ?_
  exact (correct_extendSlots hpos (fun r hr hmod => (hcont r hr hmod).choose_spec.located)
    hroom).pages hpos hcont

/-- Decoding lends the pages it starts. -/
lemma allocDecode (hps : 2 ≤ ps) (hone : OneToken batch) :
    Kept ps size (p.allocDecode batch).2
      (lent ++ (pagesOf ps ((p.allocDecode batch).1.getD [])).filter (· ∉ lent)) := by
  obtain rfl := h.pageSize_eq
  have hpos : 0 < p.pageSize := by omega
  rw [allocDecode_eq hpos hone, getNumNewPagesDecode_eq hps hone]
  refine h.take _ _ (by omega) fun hroom => ?_
  exact (correct_extendSlots hpos (fun r hr hmod => (hcont r hr hmod).choose_spec.located)
    hroom).pages hpos hcont

end Kept

/-! ## All calls -/

lemma kept_clear (ps : Nat) (needSort : Bool) (size : Nat) :
    Kept ps size (.clear ps needSort size) [] := by
  refine ⟨rfl, rfl, fun _ => rfl, ?_⟩
  show (range' 1 (size / ps) ++ [] ++ (pagesOf ps [] ++ [] ++ [])).Perm _
  rw [pagesOf_nil, append_nil, append_nil, append_nil, append_nil]

/-- Every permitted call keeps the partition. -/
lemma Kept.step {size : Nat} {σ σ' : Lender} {c : PoolCall} (hps : 2 ≤ ps)
    (h : Kept ps size σ.pool σ.lent) (hp : σ.Permits c) (hs : σ.step c = some σ') :
    Kept ps size σ'.pool σ'.lent := by
  obtain rfl := h.pageSize_eq
  have hone : σ.pool.pageSize ≠ 1 := by omega
  have hpos : 0 < σ.pool.pageSize := by omega
  rw [Lender.step, map_eq_some_iff] at hs
  obtain ⟨res, hcall, rfl⟩ := hs
  replace hcall := toOption_ok hcall
  cases c with
  | alloc needSize =>
    cases hcall
    exact h.alloc hone hpos needSize
  | allocExtend batch numNewPages =>
    cases hcall
    exact h.allocExtend hp.1 hone hpos hp.2
  | allocDecode batch =>
    cases hcall
    exact h.allocDecode hp.1 hps hp.2
  | free idx =>
    cases hcall
    exact h.free hone hp
  | freeSegment idx startPos =>
    rw [call] at hcall
    cases hseg : σ.pool.freeSegment idx startPos with
    | error fault =>
      rw [hseg] at hcall
      cases hcall
    | ok q =>
      rw [hseg] at hcall
      cases hcall
      exact h.freeSegment hone hpos hp hseg
  | freePageIds ids =>
    cases hcall
    exact h.freePageIds hone hp.1 hp.2
  | freeGroupBegin =>
    rw [call] at hcall
    cases hbegin : σ.pool.freeGroupBegin with
    | error fault =>
      rw [hbegin] at hcall
      cases hcall
    | ok q =>
      rw [hbegin] at hcall
      cases hcall
      exact h.freeGroupBegin hbegin
  | freeGroupEnd =>
    cases hcall
    exact h.freeGroupEnd
  | mergeAndSortFree =>
    cases hcall
    exact h.took (took_mergeAndSortFree σ.pool) (by rw [append_nil]; exact .refl _)
  | clear =>
    cases hcall
    exact h.size_eq ▸ kept_clear σ.pool.pageSize σ.pool.needSort σ.pool.size

/-- **Every page is in one place**, in every state of every run. -/
theorem pages_partitioned {ps size : Nat} {needSort : Bool} (hps : 2 ≤ ps) {σ : Lender}
    (hrun : Run Lender.step Lender.Permits ⟨.clear ps needSort size, []⟩ σ) : σ.Partitioned := by
  have h : Kept ps size σ.pool σ.lent := hrun.invariant (I := fun σ => Kept ps size σ.pool σ.lent)
    (kept_clear ps needSort size) fun σ c σ' h hp hs => h.step hps hp hs
  have hpages : (σ.pool.freePages ++ σ.pool.stagedPages.flatten ++ σ.pool.waiting ++
      σ.lent).Perm (range' 1 (size / ps)) := by
    rw [append_assoc]
    exact h.pages
  refine ⟨?_, rfl, ?_⟩
  · rw [numPages, h.size_eq, h.pageSize_eq]
    exact hpages
  · have hlen := hpages.length_eq
    rw [length_append, length_append, length_append, length_range'] at hlen
    rw [availableSize, h.pageSize_eq, h.size_eq]
    refine le_trans (Nat.mul_le_mul_right ps ?_) (Nat.div_mul_le_self size ps)
    omega

/-- Two pages of two slots, both lent; a group names the first one with one slot at a time. -/
theorem partitioned_after_group : ∃ σ : Lender,
    Run Lender.step Lender.Permits ⟨.clear 2 false 4, []⟩ σ ∧ σ.pool.freeGroup = none ∧
      σ.Partitioned := by
  have hrun : Run Lender.step Lender.Permits ⟨.clear 2 false 4, []⟩ ⟨.clear 2 false 4, []⟩ := .start
  have hrun := hrun.next (e := PoolCall.alloc 4) trivial rfl
  have hrun := hrun.next (e := PoolCall.freeGroupBegin) trivial rfl
  have hlent : ∀ x ∈ [2], x / 2 ∈ [] ++ (pagesOf 2 [2, 3, 4, 5]).filter (· ∉ []) := by
    simp [mem_pagesOf]
  have hrun := hrun.next (e := PoolCall.free [2]) (fun x hx => .inl (hlent x hx)) rfl
  have hnamed : ∀ x ∈ [3], x / 2 ∈ pagesOf 2 [2] := by
    simp [mem_pagesOf]
  have hrun := hrun.next (e := PoolCall.free [3]) (fun x hx => .inr (hnamed x hx)) rfl
  have hrun := hrun.next (e := PoolCall.freeGroupEnd) trivial rfl
  exact ⟨_, hrun, (settled_freeGroupEnd _).freeGroup, pages_partitioned (by decide) hrun⟩

/-- The calls of a group that name page 1 by a slot and by its number. -/
def namedTwice : List PoolCall :=
  [.alloc 2, .freeGroupBegin, .free [2], .freePageIds [1], .freeGroupEnd]

/-- **A page that is named twice is free twice.**  Both calls of the group name a page that was lent
when the group was opened. -/
theorem page_named_twice_is_free_twice :
    (runList Lender.step ⟨.clear 2 false 4, []⟩ namedTwice).map (fun σ => σ.pool.freePages) =
        some [1, 1, 2] ∧
      (runList Lender.step ⟨.clear 2 false 4, []⟩ namedTwice).map (fun σ => σ.pool.availableSize) =
        some 6 := by
  have hone : uniquePages 2 [2] = [1] := by
    simp [uniquePages]
  have hrun : runList Lender.step ⟨.clear 2 false 4, []⟩ namedTwice = some
      ⟨{ Pool.clear 2 false 4 with freePages := [1] ++ (uniquePages 2 [2] ++ [2]) },
        (withoutPagesOf 2 ([] ++ (pagesOf 2 [2, 3]).filter (· ∉ [])) [2]).filter (· ∉ [1])⟩ := rfl
  rw [hrun, hone]
  exact ⟨rfl, rfl⟩

end Sglang.Alloc
