import Sglang.Radix.Walk

/-!
# The accounts of the radix cache

`evictable_size_`, `protected_size_` and `evictable_leaves` are kept by hand at each place that
changes a node.  `Books.Accounted` says what they stand for, and is kept by every change: a split, a
new leaf, a change of one lock and a removed leaf.  A node whose lock was given back too often
counts as unlocked here.
-/

namespace Sglang.Radix
open Lib Finset

/-- What a node under so many locks adds to what can be evicted. -/
def evictableLen (lockRef : Int) (len : Nat) : Int := if lockRef ≤ 0 then len else 0

/-- What it adds to what is protected. -/
def protectedLen (lockRef : Int) (len : Nat) : Int := if lockRef ≤ 0 then 0 else len

lemma evictableLen_add (lockRef : Int) (x y : Nat) :
    evictableLen lockRef (x + y) = evictableLen lockRef x + evictableLen lockRef y := by
  grind [evictableLen]

lemma protectedLen_add (lockRef : Int) (x y : Nat) :
    protectedLen lockRef (x + y) = protectedLen lockRef x + protectedLen lockRef y := by
  grind [protectedLen]

/-- A leaf that can be evicted. -/
def NodeCore.IsLeaf (x : NodeCore) : Prop := x.lockRef ≤ 0 ∧ x.children.entries = []

namespace Books

/-- What the nodes add up to. -/
def total (b : Books) (live : Finset Nat) (w : Int → Nat → Int) : Int :=
  ∑ n ∈ live, w (b.node n).lockRef (b.node n).key.len

/-- **The counters and the leaf set are exact.** -/
structure Accounted (b : Books) (live : Finset Nat) : Prop where
  evictable : b.evictableSize = b.total live evictableLen
  protects : b.protectedSize = b.total live protectedLen
  nodup : b.evictableLeaves.Nodup
  leaves : ∀ n, n ∈ b.evictableLeaves ↔ n ∈ live ∧ (b.node n).IsLeaf
  root : 0 < (b.node b.rootNode).lockRef

variable {b b' : Books} {live : Finset Nat} {path : Nat → List Page} {n m u child k : Nat}
  {childKey newKey ck : ChildKey} {key : RadixKey} {value leaves : List Nat}

/-! ## Sums -/

/-- One node changed. -/
lemma total_of_eq_off (w : Int → Nat → Int) (hn : n ∈ live)
    (h : ∀ m ∈ live, m ≠ n →
      (b'.node m).lockRef = (b.node m).lockRef ∧ (b'.node m).key = (b.node m).key) :
    b'.total live w = b.total live w - w (b.node n).lockRef (b.node n).key.len +
      w (b'.node n).lockRef (b'.node n).key.len := by
  have hrest : ∑ m ∈ live.erase n, w (b'.node m).lockRef (b'.node m).key.len =
      ∑ m ∈ live.erase n, w (b.node m).lockRef (b.node m).key.len := by
    refine sum_congr rfl fun m hm => ?_
    obtain ⟨hlock, hkey⟩ := h m (mem_of_mem_erase hm) (ne_of_mem_erase hm)
    rw [hlock, hkey]
  have hf := add_sum_erase live (fun m => w (b.node m).lockRef (b.node m).key.len) hn
  have hg := add_sum_erase live (fun m => w (b'.node m).lockRef (b'.node m).key.len) hn
  rw [total, total]
  omega

/-- Nothing that counts changed. -/
lemma total_congr (w : Int → Nat → Int)
    (h : ∀ m ∈ live, (b'.node m).lockRef = (b.node m).lockRef ∧ (b'.node m).key = (b.node m).key) :
    b'.total live w = b.total live w :=
  sum_congr rfl fun m hm => by rw [(h m hm).1, (h m hm).2]

/-- A new node adds what it holds to a total. -/
lemma total_insert (w : Int → Nat → Int) (hn : n ∉ live) :
    b.total (insert n live) w = w (b.node n).lockRef (b.node n).key.len + b.total live w :=
  sum_insert hn

lemma total_erase (w : Int → Nat → Int) (hn : n ∈ live) :
    b.total (live.erase n) w = b.total live w - w (b.node n).lockRef (b.node n).key.len := by
  simp_all [total]

/-- The two parts of a split node weigh what it did. -/
lemma total_split (h : b.Shaped live path) (hc : child ∈ live)
    (hkl : k < (b.label child).length) {w : Int → Nat → Int}
    (hw : ∀ l x y, w l (x + y) = w l x + w l y) :
    (b.split child (k * b.pageSize) childKey newKey).total (insert b.counter live) w =
      b.total live w := by
  have hlen : (b.node child).key.len = ((b.node child).key.take (k * b.pageSize)).len +
      ((b.node child).key.drop (k * b.pageSize)).len := by
    obtain ⟨htake, hdrop⟩ := split_lens h hc hkl
    rw [htake, hdrop, ← add_mul, Nat.add_sub_cancel' hkl.le, h.aligned hc]
  have hold : (b.split child (k * b.pageSize) childKey newKey).total live w = b.total live w -
      w (b.node child).lockRef (b.node child).key.len +
      w (b.node child).lockRef ((b.node child).key.drop (k * b.pageSize)).len := by
    rw [total_of_eq_off (b := b) w hc fun m hm hmc => ?_, split_node_child h hc]
    obtain ⟨-, hkey, -, hlock⟩ := split_node_old (h.counter_ne (.inr hm)) hmc
    exact ⟨hlock, hkey⟩
  rw [total_insert w h.counter_not_mem, hold, split_node_new h hc, hlen, hw]
  simp only
  omega

/-- A new leaf is unlocked, and nothing else changes its weight. -/
lemma total_hang (h : b.Shaped live path) (hu : u ≠ b.counter) (w : Int → Nat → Int) :
    (b.hang u ck key value leaves).total (insert b.counter live) w =
      w 0 key.len + b.total live w := by
  rw [total_insert w h.counter_not_mem, total_congr w fun m hm => ?_, hang_node_new hu]
  obtain ⟨-, hkey, -, hlock⟩ := hang_node_old (h.counter_ne (.inr hm))
  exact ⟨hlock, hkey⟩

/-- A removed leaf takes off what it held. -/
lemma total_cut (hn : n ∈ live) (w : Int → Nat → Int) :
    (b.cut n ck leaves).total (live.erase n) w =
      b.total live w - w (b.node n).lockRef (b.node n).key.len := by
  rw [total_congr w fun m _ => ?_, total_erase w hn]
  obtain ⟨-, hkey, -, hlock⟩ := cut_node_old n m ck leaves
  exact ⟨hlock, hkey⟩

/-! ## The leaf set -/

variable {children : AList fun _ : ChildKey => Nat}

lemma entries_ne_nil (h : children.lookup ck = some n) : children.entries ≠ [] := fun hnil => by
  rw [AList.lookup, hnil] at h
  cases h

lemma not_isLeaf_insert {x : NodeCore} (h : x.children = children.insert ck n) :
    ¬ x.IsLeaf := fun hleaf => by
  have hlook : x.children.lookup ck = some n := by rw [h, AList.lookup_insert]
  exact entries_ne_nil hlook hleaf.2

/-- `_update_leaf_status` decides on one node. -/
lemma mem_leafStatus (hnodup : b.evictableLeaves.Nodup) :
    m ∈ b.leafStatus n ↔ if m = n then (b.node n).IsLeaf else m ∈ b.evictableLeaves := by
  rw [leafStatus, NodeCore.IsLeaf]
  by_cases hm : m = n
  · grind
  · grind

/-- A leaf is listed once, however often it is looked at. -/
lemma nodup_leafStatus (hnodup : b.evictableLeaves.Nodup) : (b.leafStatus n).Nodup := by
  grind [leafStatus]

namespace Accounted
variable (ha : b.Accounted live)
include ha

/-! ## Splits and leaves -/

/-- **A split moves nothing between the accounts.** -/
theorem split (h : b.Shaped live path) (hc : child ∈ live) (hkl : k < (b.label child).length)
    (hnk : (b.node child).key.childKey b.pageSize = .ok newKey) :
    (b.split child (k * b.pageSize) childKey newKey).Accounted (insert b.counter live) := by
  constructor
  · exact ha.evictable.trans (total_split h hc hkl evictableLen_add).symm
  · exact ha.protects.trans (total_split h hc hkl protectedLen_add).symm
  · exact ha.nodup
  · intro n
    refine (ha.leaves n).trans ?_
    by_cases hn : n = b.counter
    · subst hn
      refine iff_of_false (fun hmem => h.counter_not_mem hmem.1) fun hmem => ?_
      exact not_isLeaf_insert (congrArg NodeCore.children (split_node_new h hc)) hmem.2
    rw [mem_insert, or_iff_right hn]
    refine and_congr_right fun _ => ?_
    by_cases hnp : n = b.parentOf child
    · subst hnp
      have hlook := (h.children (h.trie.parent_mem hc)).2 ⟨hc, rfl, hnk⟩
      refine iff_of_false (fun hleaf => entries_ne_nil hlook hleaf.2) fun hleaf => ?_
      exact not_isLeaf_insert (congrArg NodeCore.children split_node_parent) hleaf
    by_cases hnc : n = child
    · subst hnc
      rw [split_node_child h hc]
      exact Iff.rfl
    · rw [split_node_of_ne hn hnc hnp]
  · have hroot : ((b.split child (k * b.pageSize) childKey newKey).node b.rootNode).lockRef = _ :=
      (split_node_old h.counter_ne_root.symm (h.ne_root hc).symm).2.2.2
    exact hroot.symm ▸ ha.root

/-- **A new leaf is evictable.** -/
theorem hung (h : b.Shaped live path) (hh : Hangs b live path u ck key value) :
    (b.hung u ck key value).Accounted (insert b.counter live) := by
  have hu := h.counter_ne hh.mem
  have hnodup : ((b.hang u ck key value b.evictableLeaves).leafStatus u).Nodup :=
    nodup_leafStatus (show (b.hang u ck key value b.evictableLeaves).evictableLeaves.Nodup
      from ha.nodup)
  constructor
  · refine Eq.trans ?_ (total_hang h hu evictableLen).symm
    show b.evictableSize + key.len = key.len + _
    rw [ha.evictable, Int.add_comm]
  · refine ha.protects.trans (Eq.trans ?_ (total_hang h hu protectedLen).symm)
    exact (Int.zero_add _).symm
  · exact nodup_leafStatus hnodup
  · intro n
    refine (mem_leafStatus hnodup).trans ?_
    by_cases hn : n = b.counter
    · subst hn
      rw [if_pos rfl]
      exact ⟨fun hleaf => ⟨mem_insert_self _ _, hleaf⟩, fun hleaf => hleaf.2⟩
    rw [if_neg hn, mem_insert, or_iff_right hn]
    refine (mem_leafStatus (b := b.hang u ck key value b.evictableLeaves) ha.nodup).trans ?_
    by_cases hnu : n = u
    · subst hnu
      rw [if_pos rfl]
      have hno : ¬ ((b.hung n ck key value).node n).IsLeaf :=
        not_isLeaf_insert (congrArg NodeCore.children hang_node_parent)
      exact iff_of_false hno fun hleaf => hno hleaf.2
    · rw [if_neg hnu]
      refine (ha.leaves n).trans (and_congr_right fun _ => ?_)
      rw [show (b.hung u ck key value).node n = b.node n from hang_node_of_ne hn hnu]
  · have hroot : ((b.hung u ck key value).node b.rootNode).lockRef = _ :=
      (hang_node_old h.counter_ne_root.symm).2.2.2
    exact hroot.symm ▸ ha.root

/-- **A removed leaf is taken off the accounts**, and its parent may be a leaf now. -/
theorem cut (h : b.Shaped live path) (hn : n ∈ live) (hleaf : (b.node n).IsLeaf) :
    (b.cut n ck ((b.cut n ck (b.evictableLeaves.erase n)).leafStatus (b.parentOf n))).Accounted
      (live.erase n) := by
  have hnodup : (b.evictableLeaves.erase n).Nodup := ha.nodup.erase n
  constructor
  · refine Eq.trans ?_ (total_cut hn evictableLen).symm
    show b.evictableSize - (b.node n).key.len = _
    rw [ha.evictable, evictableLen, if_pos hleaf.1]
  · refine ha.protects.trans (Eq.trans ?_ (total_cut hn protectedLen).symm)
    rw [protectedLen, if_pos hleaf.1, Int.sub_zero]
  · exact nodup_leafStatus hnodup
  · intro m
    refine (mem_leafStatus (b := b.cut n ck (b.evictableLeaves.erase n)) hnodup).trans ?_
    by_cases hm : m = b.parentOf n
    · subst hm
      rw [if_pos rfl]
      refine ⟨fun hp => ⟨?_, hp⟩, fun hp => hp.2⟩
      refine mem_erase.2 ⟨h.parentOf_ne hn, (h.trie.parent_mem hn).resolve_left ?_⟩
      intro hroot
      have hlock : ((b.cut n ck (b.evictableLeaves.erase n)).node (b.parentOf n)).lockRef =
          (b.node (b.parentOf n)).lockRef := (cut_node_old _ _ _ _).2.2.2
      rw [hroot] at hlock hp
      exact not_lt.2 hp.1 (hlock.symm ▸ ha.root)
    · rw [if_neg hm]
      show m ∈ b.evictableLeaves.erase n ↔ _
      rw [ha.nodup.mem_erase_iff, mem_erase, ha.leaves, and_assoc,
        show (b.cut n ck _).node m = b.node m from cut_node_of_ne hm]
  · have hroot : ((b.cut n ck ((b.cut n ck (b.evictableLeaves.erase n)).leafStatus
        (b.parentOf n))).node b.rootNode).lockRef = _ := (cut_node_old _ _ _ _).2.2.2
    exact hroot.symm ▸ ha.root

end Accounted

/-! ## Locks -/

/-- The books after the locks on a node were set to `l`, as `inc_lock_ref` and `dec_lock_ref` do one
step of the way up. -/
def relock (b : Books) (n : Nat) (l : Int) : Books :=
  let set : Books := { b with
    node := Function.update b.node n { b.node n with lockRef := l }
    evictableSize := b.evictableSize - evictableLen (b.node n).lockRef (b.node n).key.len +
      evictableLen l (b.node n).key.len
    protectedSize := b.protectedSize - protectedLen (b.node n).lockRef (b.node n).key.len +
      protectedLen l (b.node n).key.len }
  { set with evictableLeaves := set.leafStatus n }

lemma relock_node_self (l : Int) : (b.relock n l).node n = { b.node n with lockRef := l } :=
  Function.update_self _ _ _

lemma relock_node_of_ne (l : Int) (hm : m ≠ n) : (b.relock n l).node m = b.node m :=
  Function.update_of_ne hm _ _

/-- Only locks differ. -/
structure SameTree (b b' : Books) : Prop where
  disable : b'.disable = b.disable
  isEagle : b'.isEagle = b.isEagle
  pageSize : b'.pageSize = b.pageSize
  rootNode : b'.rootNode = b.rootNode
  counter : b'.counter = b.counter
  children : ∀ n, (b'.node n).children = (b.node n).children
  parent : ∀ n, (b'.node n).parent = (b.node n).parent
  key : ∀ n, (b'.node n).key = (b.node n).key
  value : ∀ n, (b'.node n).value = (b.node n).value

namespace SameTree

lemma refl (b : Books) : SameTree b b :=
  ⟨rfl, rfl, rfl, rfl, rfl, fun _ => rfl, fun _ => rfl, fun _ => rfl, fun _ => rfl⟩

lemma trans {b'' : Books} (h : SameTree b b') (h' : SameTree b' b'') : SameTree b b'' :=
  ⟨h'.disable.trans h.disable, h'.isEagle.trans h.isEagle, h'.pageSize.trans h.pageSize,
    h'.rootNode.trans h.rootNode, h'.counter.trans h.counter,
    fun n => (h'.children n).trans (h.children n), fun n => (h'.parent n).trans (h.parent n),
    fun n => (h'.key n).trans (h.key n), fun n => (h'.value n).trans (h.value n)⟩

variable (hs : SameTree b b')
include hs

lemma parentOf_eq : b'.parentOf = b.parentOf := by
  grind [parentOf, hs.parent, hs.rootNode]

lemma label_eq : b'.label = b.label := by
  grind [label, hs.key, hs.pageSize]

/-- Locks and accounts have no part in the shape of the tree. -/
lemma shaped (h : b.Shaped live path) : b'.Shaped live path := by
  constructor
  · exact hs.pageSize.symm ▸ h.pos
  · rw [hs.rootNode, hs.parentOf_eq, hs.label_eq]
    exact h.trie
  · intro n hn
    rw [hs.parent, hs.parentOf_eq]
    exact h.parent hn
  · intro p hp ck n
    rw [hs.children, hs.parentOf_eq, hs.key, hs.pageSize]
    exact h.children (hs.rootNode ▸ hp)
  · intro n hn
    rw [hs.counter]
    exact h.fresh (hs.rootNode ▸ hn)
  · intro n hn
    rw [hs.key, hs.label_eq, hs.pageSize]
    exact h.aligned hn
  · grind [hs.key, hs.value, h.values]
  · grind [hs.key, h.space]

end SameTree

lemma sameTree_relock (n : Nat) (l : Int) : SameTree b (b.relock n l) := by
  have hnode : ∀ m, ((b.relock n l).node m).children = (b.node m).children ∧
      ((b.relock n l).node m).parent = (b.node m).parent ∧
      ((b.relock n l).node m).key = (b.node m).key ∧
      ((b.relock n l).node m).value = (b.node m).value := fun m => by
    grind [relock_node_self, relock_node_of_ne]
  exact ⟨rfl, rfl, rfl, rfl, rfl, fun m => (hnode m).1, fun m => (hnode m).2.1,
    fun m => (hnode m).2.2.1, fun m => (hnode m).2.2.2⟩

/-- **A change of one lock moves the node between the accounts.** -/
theorem Accounted.relock (ha : b.Accounted live) (hn : n ∈ live) (hroot : n ≠ b.rootNode) (l : Int) :
    (b.relock n l).Accounted live := by
  have htotal : ∀ w, (b.relock n l).total live w = b.total live w -
      w (b.node n).lockRef (b.node n).key.len + w l (b.node n).key.len := fun w => by
    rw [total_of_eq_off (b := b) w hn fun m _ hmn => ?_, relock_node_self]
    rw [relock_node_of_ne l hmn]
    exact ⟨rfl, rfl⟩
  constructor
  · rw [htotal, ← ha.evictable]
    rfl
  · rw [htotal, ← ha.protects]
    rfl
  · exact nodup_leafStatus ha.nodup
  · intro m
    refine (mem_leafStatus (b := { b with
      node := Function.update b.node n { b.node n with lockRef := l },
      evictableSize := _, protectedSize := _ }) ha.nodup).trans ?_
    by_cases hm : m = n
    · subst hm
      rw [if_pos rfl]
      exact ⟨fun hleaf => ⟨hn, hleaf⟩, fun hleaf => hleaf.2⟩
    · rw [if_neg hm, relock_node_of_ne l hm]
      exact ha.leaves m
  · show 0 < ((b.relock n l).node b.rootNode).lockRef
    rw [relock_node_of_ne l hroot.symm]
    exact ha.root

end Books

end Sglang.Radix
