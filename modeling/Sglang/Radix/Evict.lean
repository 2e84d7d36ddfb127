import Sglang.Radix.Locks

/-!
# Eviction

`evict` takes the evictable leaves down one by one, in the order of a heap, and puts a parent on the
heap when its last child goes.  `Evicted` lists what was taken down.  When the locks are closed
under parents, an empty heap means that only locked nodes are left (`Books.all_locked`).

* `Evicted.shaped` and `Evicted.accounted`: the tree stays a tree, and the accounts stay right,
  while leaves are taken down.
-/

namespace Sglang.Radix
open Lib List Finset HeapEntry

variable {c : RadixCache} {b b' : Books} {live live' : Finset Nat} {path : Nat → List Page}
  {n m : Nat} {removed : List Nat}

/-! ## A leaf taken down -/

namespace Books

/-- The books after `_delete_leaf`. -/
def deleted (b : Books) (n : Nat) (ck : ChildKey) : Books :=
  b.cut n ck ((b.cut n ck (b.evictableLeaves.erase n)).leafStatus (b.parentOf n))

lemma deleted_node_old (n m : Nat) (ck : ChildKey) :
    ((b.deleted n ck).node m).parent = (b.node m).parent ∧
      ((b.deleted n ck).node m).key = (b.node m).key ∧
      ((b.deleted n ck).node m).value = (b.node m).value ∧
      ((b.deleted n ck).node m).lockRef = (b.node m).lockRef := cut_node_old n m ck _

/-- A removed leaf changes its parent and no other node. -/
lemma deleted_node_of_ne {ck : ChildKey} (hm : m ≠ b.parentOf n) :
    (b.deleted n ck).node m = b.node m := cut_node_of_ne hm

end Books

/-- **Leaves were taken down, one after the other.** -/
inductive Evicted : Books → Finset Nat → Books → Finset Nat → List Nat → Prop
  | done (b : Books) (live : Finset Nat) : Evicted b live b live []
  | step {b b' : Books} {live live' : Finset Nat} {n : Nat} {ck : ChildKey} {removed : List Nat}
      (hn : n ∈ live) (hleaf : (b.node n).IsLeaf)
      (hck : (b.node n).key.childKey b.pageSize = .ok ck)
      (hrest : Evicted (b.deleted n ck) (live.erase n) b' live' removed) :
      Evicted b live b' live' (n :: removed)

namespace Evicted
section
variable (h : Evicted b live b' live' removed)

include h

lemma consts :
    b'.pageSize = b.pageSize ∧ b'.rootNode = b.rootNode ∧ b'.isEagle = b.isEagle ∧
      b'.disable = b.disable ∧ b'.counter = b.counter := by
  induction h with
  | done => exact ⟨rfl, rfl, rfl, rfl, rfl⟩
  | step _ _ _ _ ih => exact ih

lemma node (m : Nat) :
    (b'.node m).parent = (b.node m).parent ∧ (b'.node m).key = (b.node m).key ∧
      (b'.node m).value = (b.node m).value ∧ (b'.node m).lockRef = (b.node m).lockRef := by
  induction h with
  | done => exact ⟨rfl, rfl, rfl, rfl⟩
  | @step b _ _ _ n ck _ _ _ _ _ ih =>
    obtain ⟨hp, hk, hv, hl⟩ := Books.deleted_node_old n m ck
    exact ⟨ih.1.trans hp, ih.2.1.trans hk, ih.2.2.1.trans hv, ih.2.2.2.trans hl⟩

lemma shaped (hb : b.Shaped live path) : b'.Shaped live' path := by
  induction h with
  | done => exact hb
  | step hn hleaf hck _ ih => exact ih (Books.shaped_cut hb hn hleaf.2 hck)

/-- The accounts stay right while leaves are taken down. -/
lemma accounted (hb : b.Shaped live path)
    (ha : b.Accounted live) : b'.Accounted live' := by
  induction h with
  | done => exact ha
  | step hn hleaf hck _ ih => exact ih (Books.shaped_cut hb hn hleaf.2 hck) (ha.cut hb hn hleaf)

/-- What is left are the nodes that were not taken down. -/
lemma mem_iff : m ∈ live' ↔ m ∈ live ∧ m ∉ removed := by
  induction h with
  | done => exact ⟨fun hm => ⟨hm, not_mem_nil⟩, fun hm => hm.1⟩
  | step _ _ _ _ ih =>
    rw [ih, mem_erase, List.mem_cons, not_or, and_assoc, and_left_comm]

lemma mem_of_removed (hm : m ∈ removed) : m ∈ live := by
  induction h with
  | done => exact absurd hm not_mem_nil
  | step hn _ _ _ ih =>
    grind

lemma nodup : removed.Nodup := by
  induction h with
  | done => exact nodup_nil
  | step _ _ _ hrest ih =>
    exact nodup_cons.2 ⟨fun hm => notMem_erase _ _ (hrest.mem_of_removed hm), ih⟩

/-- No node under a lock is taken down. -/
lemma lockRef_nonpos (hm : m ∈ removed) : (b.node m).lockRef ≤ 0 := by
  induction h with
  | done => exact absurd hm not_mem_nil
  | @step b _ _ _ n ck _ _ hleaf _ _ ih =>
    rcases List.mem_cons.1 hm with rfl | hm
    · exact hleaf.1
    · exact (Books.deleted_node_old n m ck).2.2.2 ▸ ih hm

end
end Evicted

/-! ## Locks closed under parents -/

namespace Books

/-- The parent of a locked node is locked. -/
def LocksClosed (b : Books) (live : Finset Nat) : Prop :=
  ∀ {n}, n ∈ live → 0 < (b.node n).lockRef → b.parentOf n ∈ live →
    0 < (b.node (b.parentOf n)).lockRef

/-- **Where no leaf can be evicted, all nodes are locked.** -/
theorem all_locked (h : b.Shaped live path) (ha : b.Accounted live) (hclosed : b.LocksClosed live)
    (hnone : b.evictableLeaves = []) (hn : n ∈ live) : 0 < (b.node n).lockRef := by
  by_contra hfree
  -- The unlocked node with the longest path would be a leaf.
  obtain ⟨x, hx, hmax⟩ := exists_max_image (live.filter fun m => (b.node m).lockRef ≤ 0)
    (fun m => (path m).length) ⟨n, mem_filter.2 ⟨hn, not_lt.1 hfree⟩⟩
  obtain ⟨hxl, hxfree⟩ := mem_filter.1 hx
  have hno : (b.node x).children.entries ≠ [] := fun hnil => by
    have hmem := (ha.leaves x).2 ⟨hxl, hxfree, hnil⟩
    rw [hnone] at hmem
    exact absurd hmem not_mem_nil
  obtain ⟨⟨ck, y⟩, hy⟩ := exists_mem_of_ne_nil _ hno
  have hlook : (b.node x).children.lookup ck = some y := AList.mem_lookup_iff.2 hy
  obtain ⟨hyl, hyx, -⟩ := (h.children (.inr hxl)).1 hlook
  have hlonger := h.trie.parent_lt hyl
  have hylock : 0 < (b.node y).lockRef := by
    grind
  have hxlock := hclosed hyl hylock (hyx.symm ▸ hxl)
  rw [hyx] at hxlock
  omega

end Books

namespace RadixCache

/-! ## `_delete_leaf` -/

/-- A leaf of the tree can be deleted, and its parent names it no more. -/
lemma deleteLeaf_spec (h : c.books.Shaped live path) (hn : n ∈ live) :
    ∃ ck c', c.deleteLeaf n = .ok c' ∧ (c.books.node n).key.childKey c.books.pageSize = .ok ck ∧
      c'.books = c.books.deleted n ck := by
  obtain ⟨ck, hck⟩ := RadixKey.childKey_ok (h.le_len hn)
  have hparent : (c.heap n).parent = some (c.books.parentOf n) := h.parent hn
  have hlook : (c.heap (c.books.parentOf n)).children.lookup ck = some n :=
    (h.children (h.trie.parent_mem hn)).2 ⟨hn, rfl, hck⟩
  have hkey : ((c.modify (c.books.parentOf n) fun p =>
      { p with children := p.children.erase ck }).heap n) = c.heap n :=
    Function.update_of_ne (h.parentOf_ne hn).symm _ _
  rw [deleteLeaf, show (c.heap n).key.childKey c.pageSize = .ok ck from hck, ofKey_ok_bind, hparent]
  simp only
  rw [hlook, if_neg (not_not.2 rfl), hkey]
  refine ⟨ck, _, rfl, hck, ?_⟩
  have hcut : ({ c.modify (c.books.parentOf n) (fun p => { p with children := p.children.erase ck })
      with
        evictableSize := c.evictableSize - (c.heap n).key.len
        evictableLeaves := c.evictableLeaves.erase n } : RadixCache).books =
      c.books.cut n ck (c.books.evictableLeaves.erase n) := by
    have hmod : (c.modify (c.books.parentOf n) fun p =>
        { p with children := p.children.erase ck }).books = _ :=
      books_modify (g := fun p => { p with children := p.children.erase ck }) fun _ => rfl
    exact congrArg (fun b : Books => { b with
      evictableSize := c.evictableSize - (c.heap n).key.len
      evictableLeaves := c.evictableLeaves.erase n }) hmod
  rw [books_updateLeafStatus]
  exact congrArg (fun b : Books => { b with
    evictableLeaves := b.leafStatus (c.books.parentOf n) }) hcut

/-! ## The loop -/

/-- What an eviction reports of the nodes taken down. -/
structure Reports (b : Books) (removed : List Nat) (res res' : EvictResult) : Prop where
  freed : res'.freed = res.freed ++ removed.map fun n => ((b.node n).value, 0)
  count : res'.numTokensEvicted =
    res.numTokensEvicted + (removed.map fun n => (b.node n).value.length).sum

lemma Reports.step {ck : ChildKey} {res' : EvictResult} {res : EvictResult}
    (h : Reports (b.deleted n ck) removed ⟨res.numTokensEvicted + (b.node n).value.length,
      res.freed ++ [((b.node n).value, 0)]⟩ res') : Reports b (n :: removed) res res' := by
  have hvalue : ∀ m, ((b.deleted n ck).node m).value = (b.node m).value := fun m =>
    (Books.deleted_node_old n m ck).2.2.1
  obtain ⟨hfreed, hcount⟩ := h
  simp only [hvalue] at hfreed hcount
  constructor
  · rw [hfreed, append_assoc]
    rfl
  · rw [hcount, List.map_cons, List.sum_cons, add_assoc]

/-- What is on the heap: evictable leaves, each once. -/
structure OnHeap (b : Books) (heap : List HeapEntry) : Prop where
  nodup : (heap.map node).Nodup
  leaf : ∀ n ∈ heap.map node, n ∈ b.evictableLeaves

/-- What is pushed after a node was taken down. -/
def pushed (b : Books) (p : HeapEntry) (rest : List HeapEntry) : List HeapEntry :=
  if (b.node p.node).children.entries = [] ∧ (b.node p.node).lockRef = 0 then p :: rest else rest

section
variable {heap rest : List HeapEntry} {e p : HeapEntry} {ck : ChildKey}
  (h : b.Shaped live path) (ha : b.Accounted live) (hheap : OnHeap b heap)
  (hpop : (e :: rest).Perm heap) (hp : p.node = b.parentOf e.node)
include ha hheap hpop

/-- What comes off the heap is an evictable leaf at that moment. -/
lemma OnHeap.popped : e.node ∈ live ∧ (b.node e.node).IsLeaf :=
  (ha.leaves e.node).1 (hheap.leaf e.node ((hpop.map node).mem_iff.1 List.mem_cons_self))

include h hp

/-- A leaf is popped, and its parent pushed if it is one now. -/
lemma OnHeap.step (hck : (b.node e.node).key.childKey b.pageSize = .ok ck) :
    OnHeap (b.deleted e.node ck) (pushed (b.deleted e.node ck) p rest) := by
  obtain ⟨hn, hleaf⟩ := hheap.popped ha hpop
  have ha' : (b.deleted e.node ck).Accounted (live.erase e.node) := ha.cut h hn hleaf
  have hperm := hpop.map node
  obtain ⟨hfresh, hnodup⟩ := nodup_cons.1 (hperm.nodup_iff.2 hheap.nodup)
  have hbusy : p.node ∉ b.evictableLeaves := fun hmem => by
    have hlook := (h.children (h.trie.parent_mem hn)).2 ⟨hn, rfl, hck⟩
    rw [hp] at hmem
    exact Books.entries_ne_nil hlook ((ha.leaves _).1 hmem).2.2
  have hrest : ∀ m ∈ rest.map node, m ∈ b.evictableLeaves := fun m hm =>
    hheap.leaf m (hperm.mem_iff.1 (List.mem_cons_of_mem _ hm))
  have hrest' : ∀ m ∈ rest.map node, m ∈ (b.deleted e.node ck).evictableLeaves :=
    fun m hm => by
      obtain ⟨hlive, hmleaf⟩ := (ha.leaves m).1 (hrest m hm)
      refine (ha'.leaves m).2 ⟨mem_erase.2 ⟨?_, hlive⟩, ?_⟩
      · rintro rfl
        exact hfresh hm
      · rw [Books.deleted_node_of_ne]
        · exact hmleaf
        · grind
  rw [pushed]
  split
  · rename_i hidle
    refine ⟨nodup_cons.2 ⟨fun hm => hbusy (hrest _ hm), hnodup⟩, fun m hm => ?_⟩
    rcases List.mem_cons.1 hm with rfl | hm
    · refine (ha'.leaves _).2 ⟨?_, hidle.2.le, hidle.1⟩
      refine mem_erase.2 ⟨hp ▸ h.parentOf_ne hn, ?_⟩
      rw [hp]
      refine (h.trie.parent_mem hn).resolve_left fun hroot => ?_
      have hlock := ha'.root
      rw [show (b.deleted e.node ck).rootNode = b.rootNode from rfl, ← hroot, ← hp,
        hidle.2] at hlock
      exact absurd hlock (Int.lt_irrefl 0)
    · exact hrest' m hm
  · exact ⟨hnodup, hrest'⟩

/-- Nothing evictable is left out, where no lock was given back too often. -/
lemma OnHeap.covers (hnonneg : ∀ m ∈ live, 0 ≤ (b.node m).lockRef)
    (hall : ∀ m ∈ b.evictableLeaves, m ∈ heap.map node) :
    ∀ m ∈ (b.deleted e.node ck).evictableLeaves,
      m ∈ (pushed (b.deleted e.node ck) p rest).map node := by
  obtain ⟨hn, hleaf⟩ := hheap.popped ha hpop
  have ha' : (b.deleted e.node ck).Accounted (live.erase e.node) := ha.cut h hn hleaf
  intro m hm
  obtain ⟨hlive, hmleaf⟩ := (ha'.leaves m).1 hm
  obtain ⟨hne, hlive⟩ := mem_erase.1 hlive
  rw [pushed]
  by_cases hmp : m = p.node
  · have hlock := hnonneg m hlive
    rw [← (Books.deleted_node_old e.node m ck).2.2.2] at hlock
    subst hmp
    rw [if_pos ⟨hmleaf.2, Int.le_antisymm hmleaf.1 hlock⟩]
    exact List.mem_cons_self
  · have hin : m ∈ rest.map node := by
      rw [Books.deleted_node_of_ne (hp ▸ hmp)] at hmleaf
      have hmem := (hpop.map node).mem_iff.2 (hall m ((ha.leaves m).2 ⟨hlive, hmleaf⟩))
      exact (List.mem_cons.1 hmem).resolve_left hne
    split
    · exact List.mem_cons_of_mem _ hin
    · exact hin

end

/-- **The loop of `evict`** ends, having freed enough or with an empty heap. -/
theorem evictLoop_spec (q : Heapq) (numTokens : Nat) : ∀ {fuel} {c : RadixCache}
    {live : Finset Nat} {heap : List HeapEntry} (res : EvictResult),
    c.books.Shaped live path → c.books.Accounted live → OnHeap c.books heap → live.card < fuel →
    ∃ res' c' live' removed, evictLoop q numTokens fuel c heap res = .ok (res', c') ∧
      Evicted c.books live c'.books live' removed ∧ Reports c.books removed res res' ∧
      (numTokens ≤ res'.numTokensEvicted ∨ ((∀ m ∈ live, 0 ≤ (c.books.node m).lockRef) →
          (∀ m ∈ c.evictableLeaves, m ∈ heap.map node) → c'.evictableLeaves = []))
  | 0, _, _, _, _, _, _, _, hfuel => absurd hfuel (Nat.not_lt_zero _)
  | fuel + 1, c, live, heap, res, h, ha, hheap, hfuel => by
    rw [evictLoop]
    split
    · split
      · rename_i hnil
        refine ⟨res, c, live, [], rfl, .done _ _, ⟨(append_nil _).symm, rfl⟩, .inr ?_⟩
        intro _ hall
        rw [(q.heappop_nil heap).1 hnil] at hall
        exact eq_nil_iff_forall_not_mem.2 fun m hm => not_mem_nil (hall m hm)
      · rename_i e rest hpop
        have hperm := q.heappop_perm hpop
        obtain ⟨hn, hleaf⟩ := hheap.popped ha hperm
        obtain ⟨ck, c1, hdel, hck, hb⟩ := deleteLeaf_spec h hn
        have hparent : (c.heap e.node).parent = some (c.books.parentOf e.node) := h.parent hn
        have hp : (c1.heapEntry (c.books.parentOf e.node)).node = c.books.parentOf e.node := rfl
        have hstep := hheap.step h ha hperm hp hck
        have hcard := card_erase_lt_of_mem hn
        have hshaped : c1.books.Shaped (live.erase e.node) path :=
          hb.symm ▸ Books.shaped_cut h hn hleaf.2 hck
        obtain ⟨res', c', live', removed, hloop, hev, hrep, hend⟩ := evictLoop_spec q numTokens
          ⟨res.numTokensEvicted + (c.heap e.node).value.length,
            res.freed ++ [((c.heap e.node).value, 0)]⟩
          hshaped (hb.symm ▸ ha.cut h hn hleaf) (hb.symm ▸ hstep)
          (show (live.erase e.node).card < fuel by omega)
        rw [hdel, ok_bind, hparent]
        refine ⟨res', c', live', e.node :: removed, hloop, .step hn hleaf hck (hb ▸ hev), ?_, ?_⟩
        · rw [hb] at hrep
          exact hrep.step
        · refine hend.imp_right fun hrun hnonneg hall => hrun ?_ ?_
          · intro m hm
            rw [hb, (Books.deleted_node_old e.node m ck).2.2.2]
            exact hnonneg m (mem_of_mem_erase hm)
          · show ∀ m ∈ c1.books.evictableLeaves, m ∈ (pushed c1.books _ _).map HeapEntry.node
            rw [hb]
            exact hheap.covers h ha hperm hp hnonneg hall
    · rename_i henough
      exact ⟨res, c, live, [], rfl, .done _ _, ⟨(append_nil _).symm, rfl⟩, .inl (not_lt.1 henough)⟩

/-- **`evict`.** -/
theorem evict_spec (q : Heapq) (h : c.books.Shaped live path) (ha : c.books.Accounted live)
    (hdis : c.disable = true → live = ∅) (numTokens : Nat) :
    ∃ res c' live' removed, c.evict q numTokens = .ok (res, c') ∧
      Evicted c.books live c'.books live' removed ∧ Reports c.books removed ⟨0, []⟩ res ∧
      (numTokens ≤ res.numTokensEvicted ∨
        ((∀ m ∈ live, 0 ≤ (c.books.node m).lockRef) → c'.evictableLeaves = [])) := by
  rw [evict]
  split
  · rename_i hd
    refine ⟨⟨0, []⟩, c, live, [], rfl, .done _ _, ⟨rfl, rfl⟩, .inr fun _ => ?_⟩
    refine eq_nil_iff_forall_not_mem.2 fun m hm => ?_
    have hlive := ((ha.leaves m).1 hm).1
    rw [hdis hd] at hlive
    exact absurd hlive (notMem_empty m)
  · have hnodes : (c.evictableLeaves.map c.heapEntry).map node = c.evictableLeaves := by
      rw [List.map_map]
      exact map_id _
    have hheap : OnHeap c.books (c.evictableLeaves.map c.heapEntry) := by
      refine ⟨?_, fun m hm => ?_⟩
      · rw [hnodes]
        exact ha.nodup
      · rwa [hnodes] at hm
    obtain ⟨res, c', live', removed, hloop, hev, hrep, hend⟩ := evictLoop_spec q numTokens ⟨0, []⟩ h
      ha hheap (card_lt_counter h)
    refine ⟨res, c', live', removed, hloop, hev, hrep, hend.imp_right fun hrun hnonneg => ?_⟩
    exact hrun hnonneg fun m hm => hnodes.symm ▸ hm

end RadixCache

end Sglang.Radix
