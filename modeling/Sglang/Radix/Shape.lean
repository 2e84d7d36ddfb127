import Sglang.Lib.Trie
import Sglang.Radix.Cache

/-!
# The tree in the heap

`Books` is what the cache holds without what only the choice of a victim reads: the nodes, the leaf
set and the two counters.  `Books.Shaped` says that the nodes form a tree in the sense of
`Lib.IsTrie` over pages, with the children dictionaries and the parent links telling the same, whole
pages on every edge and a slot for every unit.  A node is split, hung up and taken down here; the
walks of lookup and insertion are made of these.
-/

namespace Sglang.Radix
open Lib List Function Finset RadixKey

/-- What matters of a node, whatever is evicted first. -/
structure NodeCore where
  children : AList fun _ : ChildKey => Nat
  parent : Option Nat
  key : RadixKey
  value : List Nat
  lockRef : Int

/-- The core of a node. -/
def TreeNode.core (node : TreeNode) : NodeCore :=
  ⟨node.children, node.parent, node.key, node.value, node.lockRef⟩

/-- The nodes and the accounts of a cache. -/
structure Books where
  disable : Bool
  isEagle : Bool
  pageSize : Nat
  rootNode : Nat
  counter : Nat
  node : Nat → NodeCore
  evictableSize : Int
  protectedSize : Int
  evictableLeaves : List Nat

/-- The books of a cache. -/
def RadixCache.books (c : RadixCache) : Books where
  disable := c.disable
  isEagle := c.isEagle
  pageSize := c.pageSize
  rootNode := c.rootNode
  counter := c.counter
  node n := (c.heap n).core
  evictableSize := c.evictableSize
  protectedSize := c.protectedSize
  evictableLeaves := c.evictableLeaves

namespace Books
variable (b : Books)

/-- Where a node hangs. -/
def parentOf (n : Nat) : Nat := (b.node n).parent.getD b.rootNode

/-- The pages on the edge of a node. -/
def label (n : Nat) : List Page := (b.node n).key.pages b.pageSize

/-- The slots on the edge of a node, page by page. -/
def vals (n : Nat) : List (List Nat) := chunks b.pageSize (b.node n).value

/-- **The nodes form a tree.**  `live` are those but the root, `path` what leads to each. -/
structure Shaped (live : Finset Nat) (path : Nat → List Page) : Prop where
  pos : 0 < b.pageSize
  trie : IsTrie b.rootNode live b.parentOf b.label path
  parent : ∀ {n}, n ∈ live → (b.node n).parent = some (b.parentOf n)
  children : ∀ {p}, p = b.rootNode ∨ p ∈ live → ∀ {ck n},
    (b.node p).children.lookup ck = some n ↔
      n ∈ live ∧ b.parentOf n = p ∧ (b.node n).key.childKey b.pageSize = .ok ck
  fresh : ∀ {n}, n = b.rootNode ∨ n ∈ live → n < b.counter
  aligned : ∀ {n}, n ∈ live → (b.node n).key.len = (b.label n).length * b.pageSize
  values : ∀ {n}, n ∈ live → (b.node n).value.length = (b.node n).key.len
  space : ∀ {n}, n ∈ live → ∀ pg ∈ path n,
    pg.extraKey = (b.node n).key.extraKey ∧ pg.cacheSalt = (b.node n).key.cacheSalt

/-- **The map from prefixes to slots.** -/
def Caches (live : Finset Nat) (path : Nat → List Page) (p : List Page) (slots : List Nat) : Prop :=
  Maps live b.parentOf b.label path b.vals p slots

variable {b} {live : Finset Nat} {path : Nat → List Page} {n m u : Nat}

namespace Shaped
variable (h : b.Shaped live path)
include h

/-- The number given out next is that of no node. -/
lemma counter_not_mem : b.counter ∉ live := fun hmem =>
  lt_irrefl _ (h.fresh (.inr hmem))

lemma counter_ne_root : b.counter ≠ b.rootNode := fun heq =>
  lt_irrefl _ (heq ▸ h.fresh (.inl rfl))

lemma counter_ne (hn : n = b.rootNode ∨ n ∈ live) : n ≠ b.counter := ne_of_lt (h.fresh hn)

lemma fresh_insert (hn : n = b.rootNode ∨ n ∈ insert b.counter live) : n < b.counter + 1 := by
  rcases hn with rfl | hn
  · exact Nat.lt_succ_of_lt (h.fresh (.inl rfl))
  rcases mem_insert.1 hn with rfl | hn
  · exact Nat.lt_succ_self _
  · exact Nat.lt_succ_of_lt (h.fresh (.inr hn))

lemma ne_root (hn : n ∈ live) : n ≠ b.rootNode := fun heq => h.trie.root_not_mem (heq ▸ hn)

lemma parentOf_ne (hn : n ∈ live) : b.parentOf n ≠ n := fun heq =>
  absurd (h.trie.parent_lt hn) (by rw [heq]; exact lt_irrefl _)

/-- Every edge has at least one page. -/
lemma le_len (hn : n ∈ live) : b.pageSize ≤ (b.node n).key.len := by
  rw [h.aligned hn]
  exact Nat.le_mul_of_pos_left _ (h.trie.label_pos hn)

/-- The child for a key is the one whose edge starts with the key's first page. -/
lemma lookup_iff (hu : u = b.rootNode ∨ u ∈ live) {key : RadixKey} (hkey : b.pageSize ≤ key.len)
    {ck : ChildKey} (hck : key.childKey b.pageSize = .ok ck) :
    (b.node u).children.lookup ck = some n ↔
      n ∈ live ∧ b.parentOf n = u ∧ (b.label n).head? = (key.pages b.pageSize).head? := by
  rw [h.children hu, ← hck]
  refine and_congr_right fun hn => and_congr_right fun _ => ?_
  exact childKey_inj h.pos (h.le_len hn) hkey

end Shaped

/-! ## Splitting a node -/

/-- The nodes `_split_node` leaves. -/
def splitNodes (b : Books) (child splitLen : Nat) (childKey newKey : ChildKey) : Nat → NodeCore :=
  update (update (update b.node b.counter
      { children := AList.insert childKey child ∅
        parent := (b.node child).parent
        key := (b.node child).key.take splitLen
        value := (b.node child).value.take splitLen
        lockRef := (b.node child).lockRef }) child
      { b.node child with
        parent := some b.counter
        key := (b.node child).key.drop splitLen
        value := (b.node child).value.drop splitLen })
    (b.parentOf child)
      { b.node (b.parentOf child) with
        children := (b.node (b.parentOf child)).children.insert newKey b.counter }

/-- The books `_split_node` leaves. -/
def split (b : Books) (child splitLen : Nat) (childKey newKey : ChildKey) : Books :=
  { b with counter := b.counter + 1, node := b.splitNodes child splitLen childKey newKey }

section
variable {child k : Nat} {childKey newKey : ChildKey}

lemma split_node_new (h : b.Shaped live path) (hc : child ∈ live) :
    (b.split child k childKey newKey).node b.counter =
      { children := AList.insert childKey child ∅
        parent := (b.node child).parent
        key := (b.node child).key.take k
        value := (b.node child).value.take k
        lockRef := (b.node child).lockRef } := by
  show b.splitNodes child k childKey newKey b.counter = _
  rw [splitNodes, update_of_ne (h.counter_ne (h.trie.parent_mem hc)).symm,
    update_of_ne (h.counter_ne (.inr hc)).symm, update_self]

lemma split_node_child (h : b.Shaped live path) (hc : child ∈ live) :
    (b.split child k childKey newKey).node child =
      { b.node child with
        parent := some b.counter
        key := (b.node child).key.drop k
        value := (b.node child).value.drop k } := by
  show b.splitNodes child k childKey newKey child = _
  rw [splitNodes, update_of_ne (h.parentOf_ne hc).symm, update_self]

lemma split_node_parent :
    (b.split child k childKey newKey).node (b.parentOf child) =
      { b.node (b.parentOf child) with
        children := (b.node (b.parentOf child)).children.insert newKey b.counter } :=
  update_self _ _ _

/-- A split changes the child, its parent and the new node between them, and no other node. -/
lemma split_node_of_ne {n : Nat} (hnew : n ≠ b.counter) (hchild : n ≠ child)
    (hparent : n ≠ b.parentOf child) : (b.split child k childKey newKey).node n = b.node n := by
  show b.splitNodes child k childKey newKey n = _
  rw [splitNodes, update_of_ne hparent, update_of_ne hchild, update_of_ne hnew]

/-- Of a node that is neither new nor split, only the children may have changed. -/
lemma split_node_old {n : Nat} (hnew : n ≠ b.counter) (hchild : n ≠ child) :
    ((b.split child k childKey newKey).node n).parent = (b.node n).parent ∧
      ((b.split child k childKey newKey).node n).key = (b.node n).key ∧
      ((b.split child k childKey newKey).node n).value = (b.node n).value ∧
      ((b.split child k childKey newKey).node n).lockRef = (b.node n).lockRef := by
  grind [split_node_parent, split_node_of_ne]

lemma eq_update_update {α : Type} {f g : Nat → α} {x y : α} (hm : f m = x) (hn : f n = y)
    (h : ∀ u, u ≠ m → u ≠ n → f u = g u) : f = update (update g m x) n y := by
  grind

lemma split_parentOf (h : b.Shaped live path) (hc : child ∈ live) :
    (b.split child k childKey newKey).parentOf =
      update (update b.parentOf b.counter (b.parentOf child)) child b.counter := by
  refine eq_update_update ?_ ?_ fun n hnew hchild => ?_
  · rw [parentOf, split_node_new h hc]
    rfl
  · rw [parentOf, split_node_child h hc]
    rfl
  · rw [parentOf, (split_node_old hnew hchild).1]
    rfl

/-- The first pages of the edge go to the new node, the others stay with the child. -/
lemma split_label (h : b.Shaped live path) (hc : child ∈ live) :
    (b.split child (k * b.pageSize) childKey newKey).label =
      update (update b.label b.counter ((b.label child).take k)) child
        ((b.label child).drop k) := by
  refine eq_update_update ?_ ?_ fun n hnew hchild => ?_
  · rw [label, split_node_new h hc]
    exact pages_take h.pos _ _
  · rw [label, split_node_child h hc]
    exact pages_drop _ _ _
  · rw [label, (split_node_old hnew hchild).2.1]
    rfl

/-- The slots are split as the pages are. -/
lemma split_vals (h : b.Shaped live path) (hc : child ∈ live) :
    (b.split child (k * b.pageSize) childKey newKey).vals =
      update (update b.vals b.counter ((b.vals child).take k)) child
        ((b.vals child).drop k) := by
  refine eq_update_update ?_ ?_ fun n hnew hchild => ?_
  · rw [vals, split_node_new h hc]
    exact chunks_take h.pos _
  · rw [vals, split_node_child h hc]
    exact chunks_drop _ _ _
  · rw [vals, (split_node_old hnew hchild).2.2.1]
    rfl

/-- The path that leads to the new node. -/
def splitPath (b : Books) (path : Nat → List Page) (child k : Nat) : Nat → List Page :=
  update path b.counter (path (b.parentOf child) ++ (b.label child).take k)

/-- Both parts of a split edge hold whole pages. -/
lemma split_lens (h : b.Shaped live path) (hc : child ∈ live) (hkl : k < (b.label child).length) :
    ((b.node child).key.take (k * b.pageSize)).len = k * b.pageSize ∧
      ((b.node child).key.drop (k * b.pageSize)).len =
        ((b.label child).length - k) * b.pageSize := by
  have hlen := h.aligned hc
  have hle : k * b.pageSize ≤ (b.label child).length * b.pageSize := Nat.mul_le_mul_right _ hkl.le
  rw [← length_units, ← length_units, units_take, units_drop,
    length_take, length_drop, length_units, hlen, min_eq_left hle, Nat.sub_mul]
  exact ⟨rfl, rfl⟩

/-- The upper part is found under the key of the whole. -/
lemma childKey_take (h : b.Shaped live path) (hc : child ∈ live) (hk : 0 < k)
    (hkl : k < (b.label child).length) :
    ((b.node child).key.take (k * b.pageSize)).childKey b.pageSize =
      (b.node child).key.childKey b.pageSize := by
  rw [childKey_inj h.pos _ (h.le_len hc), pages_take h.pos, head?_take, if_neg (Nat.ne_of_gt hk)]
  rw [(split_lens h hc hkl).1]
  exact Nat.le_mul_of_pos_left _ hk

lemma some_parentOf {x : Nat} (hx : (b.node n).parent = some x) :
    (b.node n).parent = some (b.parentOf n) := by
  rw [parentOf, hx]
  rfl

/-- The children after a split. -/
lemma split_children (h : b.Shaped live path) (hc : child ∈ live) (hk : 0 < k)
    (hkl : k < (b.label child).length)
    (hck : ((b.node child).key.drop (k * b.pageSize)).childKey b.pageSize = .ok childKey)
    (hnk : (b.node child).key.childKey b.pageSize = .ok newKey) {p : Nat}
    (hp : p = b.rootNode ∨ p ∈ insert b.counter live) {ck : ChildKey} :
    ((b.split child (k * b.pageSize) childKey newKey).node p).children.lookup ck = some n ↔
      n ∈ insert b.counter live ∧ (b.split child (k * b.pageSize) childKey newKey).parentOf n = p ∧
        ((b.split child (k * b.pageSize) childKey newKey).node n).key.childKey b.pageSize =
          .ok ck := by
  have hne : ∀ {m}, m ∈ live → m ≠ b.counter := fun hm => h.counter_ne (.inr hm)
  rw [split_parentOf h hc]
  by_cases hpnew : p = b.counter
  · -- Only `child` hangs from the new node.
    subst hpnew
    rw [split_node_new h hc]
    constructor
    · intro hlook
      by_cases hckey : ck = childKey
      · grind [AList.lookup_insert, Option.some_inj, split_node_child, update_self]
      · rw [AList.lookup_insert_ne hckey] at hlook
        cases hlook
    · grind [h.counter_ne, h.trie.parent_mem, split_node_child, AList.lookup_insert]
  have hp : p = b.rootNode ∨ p ∈ live := hp.imp_right fun hp =>
    (mem_insert.1 hp).resolve_left hpnew
  -- A node that is neither new nor `child` keeps its place and its key.
  have hold : n ∈ live → n ≠ child → (n ∈ insert b.counter live ∧
      update (update b.parentOf b.counter (b.parentOf child)) child b.counter n =
        p ∧ ((b.split child (k * b.pageSize) childKey newKey).node n).key.childKey b.pageSize =
          .ok ck ↔ (b.node p).children.lookup ck = some n) := fun hn hnc => by
    simp_all [h.children hp, update_of_ne (hne hn), (split_node_old (hne hn) hnc).2.1]
  by_cases hpp : p = b.parentOf child
  · subst hpp
    rw [split_node_parent]
    constructor
    · intro hlook
      by_cases hckey : ck = newKey
      · grind [AList.lookup_insert, split_node_new, childKey_take]
      · grind [AList.lookup_insert_ne, h.children]
    · grind [split_node_new, childKey_take, AList.lookup_insert, AList.lookup_insert_ne, h.children]
  · have hsame : ((b.split child (k * b.pageSize) childKey newKey).node p).children =
        (b.node p).children := by
      grind [split_node_child, split_node_of_ne]
    constructor
    · grind [h.children]
    · grind

/-- **A split keeps the tree.** -/
theorem shaped_split (h : b.Shaped live path) (hc : child ∈ live) (hk : 0 < k)
    (hkl : k < (b.label child).length)
    (hck : ((b.node child).key.drop (k * b.pageSize)).childKey b.pageSize = .ok childKey)
    (hnk : (b.node child).key.childKey b.pageSize = .ok newKey) :
    (b.split child (k * b.pageSize) childKey newKey).Shaped (insert b.counter live)
      (b.splitPath path child k) := by
  have hne : ∀ {m}, m ∈ live → m ≠ b.counter := fun hm => h.counter_ne (.inr hm)
  obtain ⟨htake, hdrop⟩ := split_lens h hc hkl
  have hlabel : (b.split child (k * b.pageSize) childKey newKey).label = _ := split_label h hc
  have hvalue := h.values hc
  have hlen := h.aligned hc
  have hpath : ∀ {m}, m ∈ live → b.splitPath path child k m = path m := fun hm =>
    update_of_ne (hne hm) _ _
  constructor
  · exact h.pos
  · rw [split_parentOf h hc, hlabel]
    exact h.trie.split h.counter_not_mem h.counter_ne_root hc hk hkl
  · intro n hn
    rcases mem_insert.1 hn with rfl | hn
    · grind [some_parentOf, split_node_new, h.parent]
    by_cases hnc : n = child
    · subst hnc
      refine some_parentOf (x := b.counter) ?_
      rw [split_node_child h hc]
    · grind [some_parentOf, split_node_old, h.parent]
  · exact fun hp => split_children h hc hk hkl hck hnk hp
  · exact h.fresh_insert
  · intro n hn
    rw [hlabel]
    rcases mem_insert.1 hn with rfl | hn
    · rw [split_node_new h hc, update_of_ne (hne hc).symm, update_self,
        length_take, min_eq_left hkl.le]
      exact htake
    · by_cases hnc : n = child
      · subst hnc
        rw [split_node_child h hc, update_self, length_drop]
        exact hdrop
      · rw [(split_node_old (hne hn) hnc).2.1, update_of_ne hnc, update_of_ne (hne hn)]
        exact h.aligned hn
  · intro n hn
    rcases mem_insert.1 hn with rfl | hn
    · grind [split_node_new, Nat.mul_le_mul_right]
    · grind [split_node_child, Nat.sub_mul, split_node_old, h.values]
  · intro n hn pg hpg
    obtain ⟨hx, hs, -⟩ := (b.node child).key.getItem_sameSpace 0 (k * b.pageSize)
    obtain ⟨hx', hs', -⟩ := (b.node child).key.getItem_sameSpace (k * b.pageSize)
      (b.node child).key.len
    rcases mem_insert.1 hn with rfl | hn
    · rw [splitPath, update_self] at hpg
      have hmem : pg ∈ path child := by
        grind [h.trie.path_eq]
      rw [split_node_new h hc]
      exact ⟨((h.space hc pg hmem).1).trans hx.symm, ((h.space hc pg hmem).2).trans hs.symm⟩
    · rw [hpath hn] at hpg
      by_cases hnc : n = child
      · subst hnc
        rw [split_node_child h hc]
        exact ⟨((h.space hc pg hpg).1).trans hx'.symm, ((h.space hc pg hpg).2).trans hs'.symm⟩
      · rw [(split_node_old (hne hn) hnc).2.1]
        exact h.space hn pg hpg

/-- **A split changes no prefix and no slot.** -/
theorem caches_split (h : b.Shaped live path) (hc : child ∈ live)
    (hkl : k < (b.label child).length) {p : List Page} {slots : List Nat} :
    (b.split child (k * b.pageSize) childKey newKey).Caches (insert b.counter live)
      (b.splitPath path child k) p slots ↔ b.Caches live path p slots := by
  rw [Caches, split_parentOf h hc, split_label h hc, split_vals h hc]
  exact h.trie.maps_split h.counter_not_mem h.counter_ne_root hc hkl

end

/-! ## A new leaf -/

/-- The nodes after a leaf was hung up. -/
def hangNodes (b : Books) (u : Nat) (ck : ChildKey) (key : RadixKey) (value : List Nat) :
    Nat → NodeCore :=
  update (update b.node b.counter
      { children := ∅, parent := some u, key := key, value := value, lockRef := 0 })
    u { b.node u with children := (b.node u).children.insert ck b.counter }

/-- The books after a leaf was hung up; the leaf set is told. -/
def hang (b : Books) (u : Nat) (ck : ChildKey) (key : RadixKey) (value leaves : List Nat) : Books :=
  { b with
    counter := b.counter + 1
    node := b.hangNodes u ck key value
    evictableSize := b.evictableSize + key.len
    evictableLeaves := leaves }

section
variable {ck : ChildKey} {key : RadixKey} {value leaves : List Nat}

/-- What a leaf needs to be hung up at `u`. -/
structure Hangs (b : Books) (live : Finset Nat) (path : Nat → List Page) (u : Nat) (ck : ChildKey)
    (key : RadixKey) (value : List Nat) : Prop where
  mem : u = b.rootNode ∨ u ∈ live
  childKey : key.childKey b.pageSize = .ok ck
  aligned : key.len = (key.pages b.pageSize).length * b.pageSize
  nonempty : 0 < key.len
  length : value.length = key.len
  new : (b.node u).children.lookup ck = none
  space : ∀ pg ∈ path u, pg.extraKey = key.extraKey ∧ pg.cacheSalt = key.cacheSalt

lemma hang_node_new (hu : u ≠ b.counter) :
    (b.hang u ck key value leaves).node b.counter =
      { children := ∅, parent := some u, key := key, value := value, lockRef := 0 } := by
  show b.hangNodes u ck key value b.counter = _
  rw [hangNodes, update_of_ne hu.symm, update_self]

lemma hang_node_parent :
    (b.hang u ck key value leaves).node u =
      { b.node u with children := (b.node u).children.insert ck b.counter } :=
  update_self _ _ _

/-- A new leaf changes its parent and no other node that was there. -/
lemma hang_node_of_ne (hn : n ≠ b.counter) (hu : n ≠ u) :
    (b.hang u ck key value leaves).node n = b.node n := by
  show b.hangNodes u ck key value n = _
  rw [hangNodes, update_of_ne hu, update_of_ne hn]

/-- Of an old node only the children may have changed. -/
lemma hang_node_old (hn : n ≠ b.counter) :
    ((b.hang u ck key value leaves).node n).parent = (b.node n).parent ∧
      ((b.hang u ck key value leaves).node n).key = (b.node n).key ∧
      ((b.hang u ck key value leaves).node n).value = (b.node n).value ∧
      ((b.hang u ck key value leaves).node n).lockRef = (b.node n).lockRef := by
  grind [hang_node_parent, hang_node_of_ne]

lemma hang_parentOf (hu : u ≠ b.counter) :
    (b.hang u ck key value leaves).parentOf = update b.parentOf b.counter u := by
  funext n
  rw [parentOf]
  by_cases hn : n = b.counter
  · simp_all [hang_node_new hu]
  · rw [(hang_node_old hn).1, update_of_ne hn]
    rfl

lemma hang_label (hu : u ≠ b.counter) :
    (b.hang u ck key value leaves).label = update b.label b.counter (key.pages b.pageSize) := by
  funext n
  show ((b.hang u ck key value leaves).node n).key.pages b.pageSize = _
  by_cases hn : n = b.counter
  · simp_all [hang_node_new hu]
  · rw [(hang_node_old hn).2.1, update_of_ne hn]
    rfl

lemma hang_vals (hu : u ≠ b.counter) :
    (b.hang u ck key value leaves).vals = update b.vals b.counter (chunks b.pageSize value) := by
  funext n
  show chunks b.pageSize ((b.hang u ck key value leaves).node n).value = _
  by_cases hn : n = b.counter
  · simp_all [hang_node_new hu]
  · rw [(hang_node_old hn).2.2.1, update_of_ne hn]
    rfl

/-- The path that leads to the new leaf. -/
def hangPath (b : Books) (path : Nat → List Page) (u : Nat) (key : RadixKey) : Nat → List Page :=
  update path b.counter (path u ++ key.pages b.pageSize)

lemma Hangs.pages_ne_nil (hh : Hangs b live path u ck key value) :
    key.pages b.pageSize ≠ [] := fun hnil => by
  have hlen := hh.aligned
  have hpos := hh.nonempty
  rw [hnil, length_nil, Nat.zero_mul] at hlen
  omega

lemma Hangs.le_len (hh : Hangs b live path u ck key value) : b.pageSize ≤ key.len := by
  rw [hh.aligned]
  exact Nat.le_mul_of_pos_left _ (length_pos_iff.2 hh.pages_ne_nil)

/-- After a new leaf a node has the children it had, and the parent of the leaf has the leaf too. -/
lemma hang_children (h : b.Shaped live path) (hh : Hangs b live path u ck key value) {p : Nat}
    (hp : p = b.rootNode ∨ p ∈ insert b.counter live) {ck' : ChildKey} :
    ((b.hang u ck key value leaves).node p).children.lookup ck' = some n ↔
      n ∈ insert b.counter live ∧ (b.hang u ck key value leaves).parentOf n = p ∧
        ((b.hang u ck key value leaves).node n).key.childKey b.pageSize = .ok ck' := by
  have hu := h.counter_ne hh.mem
  have hne : ∀ {m}, m ∈ live → m ≠ b.counter := fun hm => h.counter_ne (.inr hm)
  rw [hang_parentOf hu]
  by_cases hpnew : p = b.counter
  · -- Nothing hangs from the new leaf.
    subst hpnew
    rw [hang_node_new hu]
    constructor
    · exact fun hlook => by cases hlook
    · grind [h.counter_ne, h.trie.parent_mem]
  have hp : p = b.rootNode ∨ p ∈ live := hp.imp_right fun hp =>
    (mem_insert.1 hp).resolve_left hpnew
  have hold : n ∈ live → (n ∈ insert b.counter live ∧ update b.parentOf b.counter u n = p ∧
        ((b.hang u ck key value leaves).node n).key.childKey b.pageSize = .ok ck' ↔
          (b.node p).children.lookup ck' = some n) := fun hn => by
    simp_all [h.children hp, update_of_ne (hne hn), (hang_node_old (hne hn)).2.1]
  by_cases hpu : p = u
  · subst hpu
    rw [hang_node_parent]
    constructor
    · intro hlook
      by_cases hckey : ck' = ck
      · grind [AList.lookup_insert, hang_node_new, hh.childKey]
      · grind [AList.lookup_insert_ne, h.children]
    · rintro ⟨hn, hparent, hkey⟩
      rcases mem_insert.1 hn with rfl | hmem
      · rw [hang_node_new hu] at hkey
        obtain rfl : ck = ck' := Except.ok.inj (hh.childKey.symm.trans hkey)
        exact AList.lookup_insert _
      · have hlook := (hold hmem).1 ⟨hn, hparent, hkey⟩
        rw [AList.lookup_insert_ne, hlook]
        rintro rfl
        cases hh.new.symm.trans hlook
  · grind [hang_node_of_ne, h.children]

/-- **A new leaf keeps the tree.** -/
theorem shaped_hang (h : b.Shaped live path) (hh : Hangs b live path u ck key value) :
    (b.hang u ck key value leaves).Shaped (insert b.counter live) (b.hangPath path u key) := by
  have hu := h.counter_ne hh.mem
  have hne : ∀ {m}, m ∈ live → m ≠ b.counter := fun hm => h.counter_ne (.inr hm)
  have hlabel : (b.hang u ck key value leaves).label = _ := hang_label hu
  constructor
  · exact h.pos
  · rw [hang_parentOf hu, hlabel]
    refine h.trie.addLeaf h.counter_not_mem h.counter_ne_root hh.mem hh.pages_ne_nil ?_
    intro m hm hparent hhead
    have hlook := (h.lookup_iff hh.mem hh.le_len hh.childKey).2 ⟨hm, hparent, hhead⟩
    cases hh.new.symm.trans hlook
  · intro n hn
    rcases mem_insert.1 hn with rfl | hn
    · grind [some_parentOf, hang_node_new]
    · grind [some_parentOf, hang_node_old, h.parent]
  · exact fun hp => hang_children h hh hp
  · exact h.fresh_insert
  · intro n hn
    rw [hlabel]
    rcases mem_insert.1 hn with rfl | hn
    · rw [hang_node_new hu, update_self]
      exact hh.aligned
    · rw [(hang_node_old (hne hn)).2.1, update_of_ne (hne hn)]
      exact h.aligned hn
  · intro n hn
    rcases mem_insert.1 hn with rfl | hn
    · rw [hang_node_new hu]
      exact hh.length
    · rw [(hang_node_old (hne hn)).2.1, (hang_node_old (hne hn)).2.2.1]
      exact h.values hn
  · intro n hn pg hpg
    rcases mem_insert.1 hn with rfl | hn
    · rw [hangPath, update_self] at hpg
      rw [hang_node_new hu]
      rcases mem_append.1 hpg with hpg | hpg
      · exact hh.space pg hpg
      · obtain ⟨us, -, rfl⟩ := List.mem_map.1 hpg
        exact ⟨rfl, rfl⟩
    · rw [hangPath, update_of_ne (hne hn)] at hpg
      rw [(hang_node_old (hne hn)).2.1]
      exact h.space hn pg hpg

/-- **A new leaf adds its own prefixes.** -/
theorem caches_hang (h : b.Shaped live path) (hh : Hangs b live path u ck key value)
    {p : List Page} {slots : List Nat} :
    (b.hang u ck key value leaves).Caches (insert b.counter live) (b.hangPath path u key) p slots ↔
      b.Caches live path p slots ∨ ∃ j, j < (key.pages b.pageSize).length ∧
        p = path u ++ (key.pages b.pageSize).take (j + 1) ∧
        (chunks b.pageSize value)[j]? = some slots := by
  have hu := h.counter_ne hh.mem
  rw [Caches, hang_parentOf hu, hang_label hu, hang_vals hu]
  exact h.trie.maps_addLeaf h.counter_not_mem h.counter_ne_root hh.mem

end

/-! ## A removed leaf -/

/-- The books after a leaf was taken down; the leaf set is told. -/
def cut (b : Books) (n : Nat) (ck : ChildKey) (leaves : List Nat) : Books :=
  { b with
    node := update b.node (b.parentOf n)
      { b.node (b.parentOf n) with children := (b.node (b.parentOf n)).children.erase ck }
    evictableSize := b.evictableSize - (b.node n).key.len
    evictableLeaves := leaves }

section
variable {ck : ChildKey} {leaves : List Nat}

lemma cut_node_parent : (b.cut n ck leaves).node (b.parentOf n) =
    { b.node (b.parentOf n) with children := (b.node (b.parentOf n)).children.erase ck } :=
  update_self _ _ _

lemma cut_node_of_ne (hm : m ≠ b.parentOf n) : (b.cut n ck leaves).node m = b.node m :=
  update_of_ne hm _ _

/-- A removed leaf changes no edge and no slot of any node. -/
lemma cut_node_old (n m : Nat) (ck : ChildKey) (leaves : List Nat) :
    ((b.cut n ck leaves).node m).parent = (b.node m).parent ∧
      ((b.cut n ck leaves).node m).key = (b.node m).key ∧
      ((b.cut n ck leaves).node m).value = (b.node m).value ∧
      ((b.cut n ck leaves).node m).lockRef = (b.node m).lockRef := by
  grind [cut_node_parent, cut_node_of_ne]

lemma cut_parentOf : (b.cut n ck leaves).parentOf = b.parentOf := by
  funext m
  rw [parentOf, (cut_node_old n m ck leaves).1]
  rfl

lemma cut_label : (b.cut n ck leaves).label = b.label := by
  funext m
  show ((b.cut n ck leaves).node m).key.pages b.pageSize = _
  rw [(cut_node_old n m ck leaves).2.1]
  rfl

/-- Nothing hangs from a node without children. -/
lemma Shaped.parentOf_ne_of_childless (h : b.Shaped live path) (hn : n = b.rootNode ∨ n ∈ live)
    (hnone : (b.node n).children.entries = []) (hm : m ∈ live) : b.parentOf m ≠ n := by
  intro hparent
  obtain ⟨ck, hck⟩ := childKey_ok (h.le_len hm)
  have hlook := (h.children hn).2 ⟨hm, hparent, hck⟩
  rw [AList.lookup, hnone] at hlook
  cases hlook

/-- **A removed leaf keeps the tree.** -/
theorem shaped_cut (h : b.Shaped live path) (hn : n ∈ live)
    (hnone : (b.node n).children.entries = [])
    (hck : (b.node n).key.childKey b.pageSize = .ok ck) :
    (b.cut n ck leaves).Shaped (live.erase n) path := by
  have hleaf : ∀ m ∈ live, b.parentOf m ≠ n := fun m hm =>
    h.parentOf_ne_of_childless (.inr hn) hnone hm
  constructor
  · exact h.pos
  · rw [cut_parentOf, cut_label]
    exact h.trie.removeLeaf hleaf
  · intro m hm
    rw [cut_parentOf, (cut_node_old n m ck leaves).1]
    exact h.parent (Finset.mem_of_mem_erase hm)
  · intro p hp' ck' m
    have hp : p = b.rootNode ∨ p ∈ live := hp'.imp_right Finset.mem_of_mem_erase
    rw [cut_parentOf, (cut_node_old n m ck leaves).2.1, mem_erase]
    by_cases hpp : p = b.parentOf n
    · subst hpp
      rw [cut_node_parent]
      by_cases hckey : ck' = ck
      · subst hckey
        rw [AList.lookup_erase]
        constructor
        · exact fun hlook => by cases hlook
        · rintro ⟨⟨hmn, hm⟩, hparent, hkey⟩
          have hlook := (h.children hp).2 ⟨hm, hparent, hkey⟩
          have hlook' := (h.children hp).2 ⟨hn, rfl, hck⟩
          exact absurd (Option.some_inj.1 (hlook.symm.trans hlook')) hmn
      · rw [AList.lookup_erase_ne hckey, h.children hp]
        constructor
        · rintro ⟨hm, hparent, hkey⟩
          refine ⟨⟨?_, hm⟩, hparent, hkey⟩
          rintro rfl
          exact hckey (Except.ok.inj (hkey.symm.trans hck))
        · exact fun ⟨⟨_, hm⟩, hrest⟩ => ⟨hm, hrest⟩
    · rw [cut_node_of_ne hpp, h.children hp]
      constructor
      · rintro ⟨hm, hparent, hkey⟩
        refine ⟨⟨?_, hm⟩, hparent, hkey⟩
        rintro rfl
        exact hpp hparent.symm
      · exact fun ⟨⟨_, hm⟩, hrest⟩ => ⟨hm, hrest⟩
  · exact fun hm => h.fresh (hm.imp_right Finset.mem_of_mem_erase)
  · intro m hm
    rw [cut_label, (cut_node_old n m ck leaves).2.1]
    exact h.aligned (Finset.mem_of_mem_erase hm)
  · grind [cut_node_old, h.values]
  · grind [cut_node_old, h.space]

end
end Books
end Sglang.Radix
