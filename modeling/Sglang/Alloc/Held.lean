import Sglang.Alloc.Atomic

/-!
# What a pool holds

The pages a pool holds are its free ones and those that wait in an open free group.  A free adds the
pages it names, now or when the group ends; an allocation takes pages away; closing a group changes
nothing but where they are, as long as no page waits twice.
-/

namespace Sglang.Alloc
open Lib List

variable {ps : Nat} {p q : Pool} {xs idx : List Nat}

/-! ## The pages of some slots -/

/-- The pages `free` releases. -/
def pagesOf (ps : Nat) (freeIndex : List Nat) : List Nat :=
  if ps = 1 then freeIndex else Pool.uniquePages ps freeIndex

lemma mem_uniquePages {a : Nat} : a ∈ Pool.uniquePages ps idx ↔ ∃ x ∈ idx, x / ps = a := by
  rw [Pool.uniquePages, mem_dedup, mem_mergeSort, mem_map]

lemma mem_pagesOf {a : Nat} : a ∈ pagesOf ps idx ↔ ∃ x ∈ idx, x / ps = a := by
  grind [pagesOf, mem_uniquePages]

@[simp] lemma pagesOf_nil (ps : Nat) : pagesOf ps [] = [] := by
  rw [eq_nil_iff_forall_not_mem]
  intro a ha
  obtain ⟨x, hx, -⟩ := mem_pagesOf.1 ha
  exact absurd hx not_mem_nil

/-- The pages of slots are distinct; with pages of one slot that is up to the caller. -/
lemma nodup_pagesOf (h : ps = 1 → idx.Nodup) : (pagesOf ps idx).Nodup := by
  rw [pagesOf]
  split
  · exact h ‹_›
  · exact nodup_dedup _

/-! ## Held pages -/

lemma allFree_releasePageIds (p : Pool) (pageIds : List Nat) :
    (p.releasePageIds pageIds).allFree.Perm (pageIds ++ p.allFree) := by
  rw [Pool.releasePageIds]
  split
  · show (p.freePages ++ (p.stagedPages ++ [pageIds]).flatten).Perm _
    rw [flatten_append, flatten_singleton, ← append_assoc]
    exact perm_append_comm
  · grind [Pool.allFree]

/-- Everything but the free lists stays as it is. -/
lemma releasePageIds_frame (p : Pool) (pageIds : List Nat) :
    (p.releasePageIds pageIds).pageSize = p.pageSize ∧
    (p.releasePageIds pageIds).size = p.size ∧
    (p.releasePageIds pageIds).freeGroup = p.freeGroup ∧
    (p.releasePageIds pageIds).freePageIdsGroup = p.freePageIdsGroup := by
  grind [Pool.releasePageIds]

/-- The pages of a piece of a row that starts on a page. -/
def segmentPages (ps : Nat) (freeIndex : List Nat) : List Nat :=
  (Pool.strided ps freeIndex).map (· / ps)

@[simp] lemma segmentPages_nil (ps : Nat) : segmentPages ps [] = [] := by
  rw [segmentPages, Pool.strided, length_nil, pages_zero]
  rfl

/-! ## Closing a free group -/

/-- The pages the slots of the open group name. -/
def Pool.namedPages (p : Pool) : List Nat := pagesOf p.pageSize (p.freeGroup.getD []).flatten

/-- The pages that wait in the open group. -/
def Pool.waiting (p : Pool) : List Nat := p.namedPages ++ p.freePageIdsGroup.flatten

/-- Without an open group, a free releases pages and nothing else. -/
lemma free_closed (h : p.freeGroup = none) (freeIndex : List Nat) :
    p.free freeIndex = p ∧ pagesOf p.pageSize freeIndex = [] ∨
      p.free freeIndex = p.releasePageIds (pagesOf p.pageSize freeIndex) := by
  rw [Pool.free]
  split
  · simp_all
  · rw [h]
    exact .inr rfl

/-- `q` is `p` with its free group closed. -/
structure Settled (p q : Pool) : Prop where
  pageSize : q.pageSize = p.pageSize
  size : q.size = p.size
  freeGroup : q.freeGroup = none
  freePageIdsGroup : q.freePageIdsGroup = []
  allFree : q.allFree.Perm (p.waiting ++ p.allFree)

/-- **Closing a free group releases what waits in it**, a page once for all the slots that name
it. -/
theorem settled_freeGroupEnd (p : Pool) : Settled p p.freeGroupEnd := by
  -- First the slots of the group,
  have hfirst : ∃ q, (if p.freeGroup.getD [] = [] then { p with freeGroup := none }
        else ({ p with freeGroup := none } : Pool).free (p.freeGroup.getD []).flatten) = q ∧
      q.pageSize = p.pageSize ∧ q.size = p.size ∧ q.freeGroup = none ∧
      q.freePageIdsGroup = p.freePageIdsGroup ∧ q.allFree.Perm (p.namedPages ++ p.allFree) := by
    refine ⟨_, rfl, ?_⟩
    split
    · rename_i hnil
      refine ⟨rfl, rfl, rfl, rfl, ?_⟩
      rw [Pool.namedPages, hnil, flatten_nil, pagesOf_nil]
      exact .refl _
    · rcases free_closed (p := { p with freeGroup := none }) rfl (p.freeGroup.getD []).flatten
        with ⟨hfree, hnone⟩ | hfree
      · rw [hfree, Pool.namedPages, show pagesOf p.pageSize _ = [] from hnone]
        exact ⟨rfl, rfl, rfl, rfl, .refl _⟩
      · rw [hfree]
        obtain ⟨hpage, hsize, hgroup, hids⟩ := releasePageIds_frame { p with freeGroup := none }
          (pagesOf p.pageSize (p.freeGroup.getD []).flatten)
        exact ⟨hpage, hsize, hgroup, hids, allFree_releasePageIds _ _⟩
  obtain ⟨q, hq, hpage, hsize, hgroup, hids, hall⟩ := hfirst
  rw [Pool.freeGroupEnd]
  rw [hq]
  -- then its page ids.
  split
  · rename_i hnil
    refine ⟨hpage, hsize, hgroup, hnil, ?_⟩
    rw [Pool.waiting, ← hids, hnil, flatten_nil, append_nil]
    exact hall
  · obtain ⟨hpage', hsize', hgroup', -⟩ := releasePageIds_frame q q.freePageIdsGroup.flatten
    refine ⟨hpage'.trans hpage, hsize'.trans hsize, hgroup'.trans hgroup, rfl, ?_⟩
    have hrelease := allFree_releasePageIds q q.freePageIdsGroup.flatten
    show (q.releasePageIds q.freePageIdsGroup.flatten).allFree.Perm _
    rw [Pool.waiting, ← hids]
    rw [← Multiset.coe_eq_coe] at hrelease hall ⊢
    simp only [← Multiset.coe_add] at hrelease hall ⊢
    rw [hrelease, hall]
    abel

/-! ## Segments -/

variable {lent : List Nat}

/-- A piece of a row that starts on a page and holds whole pages, but for its last. -/
structure Segment (ps : Nat) (lent idx : List Nat) : Prop where
  pages : ∀ {k x}, idx[k]? = some x → x / ps = idx.getD (ps * (k / ps)) 0 / ps
  nodup : (segmentPages ps idx).Nodup
  lent : ∀ a ∈ segmentPages ps idx, a ∈ lent

/-- The strided pages of a segment are the pages of its slots. -/
lemma Segment.mem_pages (hps : 0 < ps) (h : Segment ps lent idx) {a : Nat} :
    a ∈ segmentPages ps idx ↔ a ∈ pagesOf ps idx := by
  rw [mem_pagesOf, segmentPages, mem_map]
  constructor
  · grind [Pool.strided, lt_pages_iff, getElem_mem]
  · rintro ⟨x, hx, rfl⟩
    obtain ⟨k, hk⟩ := mem_iff_getElem?.1 hx
    have hlt := (List.getElem?_eq_some_iff.1 hk).1
    refine ⟨_, mem_map.2 ⟨k / ps, mem_range.2 (div_lt_pages hps hlt), rfl⟩, ?_⟩
    exact (h.pages hk).symm

/-- What is lent after some slots were freed. -/
def withoutPagesOf (ps : Nat) (lent idx : List Nat) : List Nat :=
  lent.filter fun a => decide (a ∉ pagesOf ps idx)

lemma perm_append_filter {α : Type*} [DecidableEq α] {items lent : List α} (hlent : lent.Nodup)
    (hitems : items.Nodup) (hsub : ∀ a ∈ items, a ∈ lent) :
    (items ++ lent.filter (· ∉ items)).Perm lent := by
  have hpart : (lent.filter (· ∈ items)).Perm items := by
    grind
  refine (hpart.symm.append_right _).trans ?_
  have hsplit := filter_append_perm (fun a => decide (a ∈ items)) lent
  simpa using hsplit

/-! ## The pages of an allocation

The slots an allocation hands out lie on lent pages that it continues and on exactly the new pages
it takes. -/

section
variable {ps : Nat} {lent : List Nat} {batch : List ExtendReq} {free : List Nat}

/-! ## Where a slot comes from -/

/-- A request that continues a page continues a lent one. -/
structure Continues (ps : Nat) (lent : List Nat) (r : ExtendReq) (last : Nat) : Prop where
  lastLoc : r.lastLoc = some last
  located : r.Located ps
  lent : last / ps ∈ lent

variable {out : List Nat}

lemma exists_at (hlen : out.length = numTokens batch) {j x : Nat} (h : out[j]? = some x) :
    ∃ i r p, At batch i r p ∧ j = outStart batch i + (p - r.prefixLen) ∧
      outAt batch out i r p = x := by
  have hlt : j < numTokens batch := hlen ▸ (List.getElem?_eq_some_iff.1 h).1
  obtain ⟨i, r, k, hi, hk, rfl⟩ := exists_of_lt_sum (·.extendLen) hlt
  replace hk : k < r.seqLen - r.prefixLen := hk
  have hpos : r.prefixLen + k - r.prefixLen = k := Nat.add_sub_cancel_left _ _
  refine ⟨i, r, r.prefixLen + k, ⟨hi, Nat.le_add_right _ _, by omega⟩, by rw [hpos, outStart], ?_⟩
  rw [outAt, hpos, outStart, getD_eq_getElem?_getD, h]
  rfl

variable {i p : Nat} {r : ExtendReq}

/-- The slots of a batch on the page it continues, or on a new one. -/
lemma CorrectSlots.page_cases (h : CorrectSlots ps free batch out) (hps : 0 < ps)
    (hat : At batch i r p) :
    (r.prefixLen % ps ≠ 0 ∧ p / ps < pages ps r.prefixLen ∧ ∀ last, r.lastLoc = some last →
      outAt batch out i r p / ps = last / ps) ∨
    (pages ps r.prefixLen ≤ p / ps ∧ pageIndex ps batch i r p < getNumNewPages ps batch ∧
      free[pageIndex ps batch i r p]? = some (outAt batch out i r p / ps)) := by
  rcases hat.page hps with ⟨hmod, hpage, hlt⟩ | ⟨hnew, -⟩
  · refine .inl ⟨hmod, (Nat.div_lt_iff_lt_mul hps).2 hlt, fun last hlast =>
      h.continues hat hlast hmod ?_⟩
    have hpos : r.prefixLen - 1 + 1 = r.prefixLen := by
      have : r.prefixLen ≠ 0 := fun hzero => hmod (by rw [hzero, Nat.zero_mod])
      omega
    have hsame := (succ_of_mod_ne_zero (n := r.prefixLen - 1) (by rwa [hpos])).1
    rw [hpage, ← hsame, hpos]
  · exact .inr ⟨hnew, h.fresh hat hnew⟩

/-- **The pages of a successful allocation** are lent ones it continues, and exactly the new
ones. -/
theorem newPages_perm {taken : List Nat} (hnodup : (lent ++ taken).Nodup)
    (hout : ps = 1 → out.Nodup) (hin : ∀ x ∈ out, x / ps ∈ lent ∨ x / ps ∈ taken)
    (hall : ∀ a ∈ taken, ∃ x ∈ out, x / ps = a) :
    ((pagesOf ps out).filter (· ∉ lent)).Perm taken := by
  rw [nodup_append] at hnodup
  rw [perm_ext_iff_of_nodup ((nodup_pagesOf hout).filter _) hnodup.2.1]
  intro a
  rw [mem_filter, mem_pagesOf, decide_eq_true_eq]
  constructor
  · grind
  · grind

lemma outAt_mem (hlen : out.length = numTokens batch) (h : At batch i r p) :
    outAt batch out i r p ∈ out := by
  have hlow := h.lower
  have hup := h.upper
  have hsum := sum_take_add_sum_drop (batch.map (·.extendLen)) (i + 1)
  have hnext := outStart_succ h.get
  rw [← map_take] at hsum
  rw [outStart, ExtendReq.extendLen] at hnext
  have hlt : outStart batch i + (p - r.prefixLen) < out.length := by
    rw [hlen, numTokens]
    omega
  rw [outAt, getD_eq_getElem _ _ hlt]
  exact getElem_mem hlt

/-- Slots that are right lie on pages that were lent before or are taken now, and on all of the
latter. -/
lemma CorrectSlots.pages (h : CorrectSlots ps free batch out) (hps : 0 < ps)
    (hcont : ∀ r ∈ batch, r.prefixLen % ps ≠ 0 → ∃ last, Continues ps lent r last) :
    (∀ x ∈ out, x / ps ∈ lent ∨ x / ps ∈ free.take (getNumNewPages ps batch)) ∧
      ∀ a ∈ free.take (getNumNewPages ps batch), ∃ x ∈ out, x / ps = a := by
  refine ⟨fun x hx => ?_, fun a ha => ?_⟩
  · obtain ⟨j, hj⟩ := mem_iff_getElem?.1 hx
    obtain ⟨i, r, p, hat, -, rfl⟩ := exists_at h.length hj
    rcases h.page_cases hps hat with ⟨hmod, -, hpage⟩ | ⟨-, hlt, hget⟩
    · obtain ⟨last, hlast⟩ := hcont r (mem_of_getElem? hat.get) hmod
      exact .inl (hpage last hlast.lastLoc ▸ hlast.lent)
    · refine .inr (mem_of_getElem? (i := pageIndex ps batch i r p) ?_)
      rw [List.getElem?_take_of_lt hlt, hget]
  · obtain ⟨k, hk⟩ := mem_iff_getElem?.1 ha
    have hlt : k < getNumNewPages ps batch := by
      have := (List.getElem?_eq_some_iff.1 hk).1
      rw [length_take] at this
      omega
    rw [List.getElem?_take_of_lt hlt] at hk
    obtain ⟨i, r, p, hat, hnew, rfl⟩ := h.used k hlt
    refine ⟨_, outAt_mem h.length hat, ?_⟩
    exact Option.some_inj.1 ((h.fresh hat hnew).2.symm.trans hk)

end

end Sglang.Alloc
