import Sglang.Radix.Accounts

/-!
# Locking a path

`inc_lock_ref` and `dec_lock_ref` climb from a node to the root and change the lock of each node on
the way: of exactly the nodes whose path is a start of the node's own.

* `incLockRef_spec` and `decLockRef_spec`: the climb succeeds, changes the locks of the path by one,
  and returns the length that has moved between the two accounts.
-/

namespace Sglang.Radix
open Lib Finset

variable {c : RadixCache} {b b' : Books} {live : Finset Nat} {path : Nat → List Page} {n m : Nat}
  {δ : Int}

/-- **The locks on the way from `n` up to the root were changed by `δ`.** -/
structure Relocked (b : Books) (live : Finset Nat) (path : Nat → List Page) (n : Nat) (δ : Int)
    (b' : Books) : Prop where
  same : Books.SameTree b b'
  lockRef : ∀ {m}, m ∈ live →
    (b'.node m).lockRef = (b.node m).lockRef + if path m <+: path n then δ else 0
  accounted : b.Accounted live → b'.Accounted live

namespace Relocked

lemma root (h : b.Shaped live path) : Relocked b live path b.rootNode δ b := by
  refine ⟨.refl b, fun hm => ?_, id⟩
  rw [h.trie.path_root, if_neg, Int.add_zero]
  exact fun hpre => h.trie.path_ne_nil hm (List.prefix_nil.1 hpre)

lemma of_empty (b : Books) (path : Nat → List Page) (n : Nat) (δ : Int) :
    Relocked b ∅ path n δ b :=
  ⟨.refl b, fun hm => absurd hm (Finset.notMem_empty _), id⟩

/-- One step of the climb, from a node to its parent. -/
lemma step (h : b.Shaped live path) (hn : n ∈ live)
    (hrest : Relocked (b.relock n ((b.node n).lockRef + δ)) live path (b.parentOf n) δ b') :
    Relocked b live path n δ b' := by
  refine ⟨(Books.sameTree_relock n _).trans hrest.same, fun {m} hm => ?_, fun ha =>
    hrest.accounted (ha.relock hn (h.ne_root hn) _)⟩
  rw [hrest.lockRef hm]
  by_cases hmn : m = n
  · subst hmn
    have hoff : ¬ path m <+: path (b.parentOf m) := fun hpre =>
      Nat.not_le_of_lt (h.trie.parent_lt hm) hpre.length_le
    rw [Books.relock_node_self, if_neg hoff, if_pos (List.prefix_refl _), Int.add_zero]
  · grind [h.trie.path_prefix_iff, Books.relock_node_of_ne]

end Relocked

namespace RadixCache

/-! ## One step up -/

/-- A node leaves what can be evicted with its first lock, for what is protected. -/
lemma lens_inc (s t l : Int) (len : Nat) :
    s - evictableLen l len + evictableLen (l + 1) len = (if l = 0 then s - len else s) ∧
      t - protectedLen l len + protectedLen (l + 1) len = (if l = 0 then t + len else t) := by
  grind [evictableLen, protectedLen]

/-- Giving back the last lock moves the length of the node from one account to the other. -/
lemma lens_dec (s t l : Int) (len : Nat) :
    s - evictableLen l len + evictableLen (l + -1) len = (if l = 1 then s + len else s) ∧
      t - protectedLen l len + protectedLen (l + -1) len = (if l = 1 then t - len else t) := by
  grind [evictableLen, protectedLen]

/-- The locks on a node change by `δ`, in a cache where the sizes have been changed before. -/
lemma books_addLock {c1 : RadixCache} {δ : Int} {f : TreeNode → TreeNode}
    (hf : ∀ x, (f x).core = { x.core with lockRef := x.core.lockRef + δ })
    (hb : c1.books = { c.books with
      evictableSize := c.evictableSize - evictableLen (c.heap n).lockRef (c.heap n).key.len +
        evictableLen ((c.heap n).lockRef + δ) (c.heap n).key.len
      protectedSize := c.protectedSize - protectedLen (c.heap n).lockRef (c.heap n).key.len +
        protectedLen ((c.heap n).lockRef + δ) (c.heap n).key.len }) :
    ((c1.modify n f).updateLeafStatus n).books =
      c.books.relock n ((c.books.node n).lockRef + δ) := by
  rw [books_updateLeafStatus,
    books_modify (g := fun x => { x with lockRef := x.lockRef + δ }) hf, hb]
  rfl

/-- What `inc_lock_ref` does to the books at one node. -/
lemma books_incLock : (c.incLock n).books = c.books.relock n ((c.books.node n).lockRef + 1) := by
  refine books_addLock (fun _ => rfl) ?_
  rw [(lens_inc _ 0 _ _).1, (lens_inc 0 _ _ _).2]
  split <;> rfl

lemma books_decLock : (c.decLock n).books = c.books.relock n ((c.books.node n).lockRef - 1) := by
  refine books_addLock (δ := -1) (fun _ => rfl) ?_
  rw [(lens_dec _ 0 _ _).1, (lens_dec 0 _ _ _).2]
  split <;> rfl

/-! ## The way up -/

/-- A node was locked anew: its parent is next. -/
lemma climb {c' : RadixCache} {l : Int} (h : c.books.Shaped live path)
    (hb : c'.books = c.books.relock n l) (hmem : n ∈ live) :
    c'.books.Shaped live path ∧ (c'.heap n).parent = some (c.books.parentOf n) ∧
      (c.books.parentOf n = c'.rootNode ∨ c.books.parentOf n ∈ live) ∧
      IsTrie.depth live path (c.books.parentOf n) < IsTrie.depth live path n := by
  have hsame := Books.sameTree_relock (b := c.books) n l
  rw [← hb] at hsame
  exact ⟨hsame.shaped h, (hsame.parent n).trans (h.parent hmem),
    (h.trie.parent_mem hmem).imp_left fun heq => heq.trans hsame.rootNode.symm,
    h.trie.depth_parent_lt hmem⟩

/-- **The loop of `inc_lock_ref`** ends at the root, and returns the change of what can be
evicted. -/
theorem incLockLoop_spec : ∀ {fuel} {c : RadixCache} {n : Nat} (delta : Int),
    c.books.Shaped live path → (n = c.rootNode ∨ n ∈ live) → IsTrie.depth live path n < fuel →
    ∃ c', incLockLoop fuel c n delta = .ok (delta + (c'.evictableSize - c.evictableSize), c') ∧
      Relocked c.books live path n 1 c'.books
  | 0, _, _, _, _, _, hfuel => absurd hfuel (Nat.not_lt_zero _)
  | fuel + 1, c, n, delta, h, hn, hfuel => by
    rw [incLockLoop]
    split
    · rename_i hroot
      subst hroot
      exact ⟨c, by rw [Int.sub_self, Int.add_zero], Relocked.root h⟩
    · rename_i hroot
      have hmem := hn.resolve_left hroot
      obtain ⟨h', hparent, hup, hdepth⟩ := climb h books_incLock hmem
      obtain ⟨c', hloop, hre⟩ := incLockLoop_spec
        (if (c.heap n).lockRef = 0 then delta - (c.heap n).key.len else delta) h' hup
        (show _ < fuel by omega)
      refine ⟨c', ?_, Relocked.step h hmem (books_incLock ▸ hre)⟩
      have hsize : (c.incLock n).evictableSize =
          if (c.heap n).lockRef = 0 then c.evictableSize - (c.heap n).key.len
          else c.evictableSize := by
        refine (congrArg Books.evictableSize books_incLock).trans ?_
        exact (lens_inc _ c.protectedSize _ _).1
      simp only
      rw [hparent]
      simp only
      rw [hloop, hsize]
      congr 2
      split <;> omega

/-- **The loop of `dec_lock_ref`.** -/
theorem decLockLoop_spec : ∀ {fuel} {c : RadixCache} {n : Nat} (delta : Int),
    c.books.Shaped live path → (n = c.rootNode ∨ n ∈ live) → IsTrie.depth live path n < fuel →
    ∃ c', decLockLoop fuel c n delta = .ok (delta + (c'.evictableSize - c.evictableSize), c') ∧
      Relocked c.books live path n (-1) c'.books
  | 0, _, _, _, _, _, hfuel => absurd hfuel (Nat.not_lt_zero _)
  | fuel + 1, c, n, delta, h, hn, hfuel => by
    rw [decLockLoop]
    split
    · rename_i hroot
      subst hroot
      exact ⟨c, by rw [Int.sub_self, Int.add_zero], Relocked.root h⟩
    · rename_i hroot
      have hmem := hn.resolve_left hroot
      obtain ⟨h', hparent, hup, hdepth⟩ := climb h books_decLock hmem
      obtain ⟨c', hloop, hre⟩ := decLockLoop_spec
        (if (c.heap n).lockRef = 1 then delta + (c.heap n).key.len else delta) h' hup
        (show _ < fuel by omega)
      refine ⟨c', ?_, Relocked.step h hmem (books_decLock ▸ hre)⟩
      have hsize : (c.decLock n).evictableSize =
          if (c.heap n).lockRef = 1 then c.evictableSize + (c.heap n).key.len
          else c.evictableSize := by
        refine (congrArg Books.evictableSize books_decLock).trans ?_
        exact (lens_dec _ c.protectedSize _ _).1
      simp only
      rw [hparent]
      simp only
      rw [hloop, hsize]
      congr 2
      split <;> omega

/-- The fuel of the climb suffices: there are no more nodes than numbers given out. -/
lemma card_lt_counter (h : c.books.Shaped live path) : live.card < c.counter + 1 := by
  have hsub : live ⊆ Finset.range c.counter := fun n hn =>
    Finset.mem_range.2 (h.fresh (.inr hn))
  have hcard := Finset.card_le_card hsub
  rw [Finset.card_range] at hcard
  exact Nat.lt_succ_of_le hcard

variable (h : c.books.Shaped live path) (hdis : c.disable = true → live = ∅)
  (hn : n = c.rootNode ∨ n ∈ live)
include h hdis hn

/-- **`inc_lock_ref`.** -/
theorem incLockRef_spec : ∃ c', c.incLockRef n =
    .ok (c'.evictableSize - c.evictableSize, c') ∧ Relocked c.books live path n 1 c'.books := by
  rw [incLockRef]
  split
  · grind [Relocked.of_empty]
  obtain ⟨c', hloop, hre⟩ := incLockLoop_spec 0 h hn
    (lt_of_le_of_lt (IsTrie.depth_le n) (card_lt_counter h))
  rw [Int.zero_add] at hloop
  exact ⟨c', hloop, hre⟩

/-- **`dec_lock_ref`.** -/
theorem decLockRef_spec : ∃ c', c.decLockRef n =
    .ok (c'.evictableSize - c.evictableSize, c') ∧ Relocked c.books live path n (-1) c'.books := by
  rw [decLockRef]
  split
  · grind [Relocked.of_empty]
  obtain ⟨c', hloop, hre⟩ := decLockLoop_spec 0 h hn
    (lt_of_le_of_lt (IsTrie.depth_le n) (card_lt_counter h))
  rw [Int.zero_add] at hloop
  exact ⟨c', hloop, hre⟩

end RadixCache
end Sglang.Radix
