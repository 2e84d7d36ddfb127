import Sglang.Radix.Shape

/-!
# Walking down the tree

Lookup and insertion walk down along the pages of a key until no edge goes on, and split the last
edge when they leave it in the middle.  `matchLoop_spec` and `insertLoop_spec` say where a walk
ends: at the longest prefix of the key that is cached, on a tree that caches the same as before.

* `splitNode_ok`: a split succeeds on any edge and changes neither what is cached nor where.
* `matchPrefix_spec`: a lookup returns the slots of the longest cached prefix.
* `caches` and `insert_spec`: an insert adds the prefixes that were not there, with their slots, and
  reports how much was there.
-/

namespace Sglang.Radix
open Lib List Function Books RadixKey

variable {c c' : RadixCache} {b b' : Books} {live live' : Finset Nat} {path path' : Nat → List Page}

/-! ## What a write does to the books -/

namespace RadixCache
variable {n : Nat} {f : TreeNode → TreeNode}

lemma books_modify {g : NodeCore → NodeCore} (hf : ∀ x, (f x).core = g x.core) :
    (c.modify n f).books = { c.books with node := update c.books.node n (g (c.books.node n)) } := by
  have hnode : (fun m => ((c.modify n f).heap m).core) =
      update c.books.node n (g (c.books.node n)) := by
    funext m
    show (update c.heap n (f (c.heap n)) m).core = _
    by_cases hm : m = n
    · subst hm
      rw [update_self, update_self]
      exact hf _
    · rw [update_of_ne hm, update_of_ne hm]
      rfl
  rw [← hnode]
  rfl

/-- A change of what the books do not record, such as an access time. -/
lemma books_modify_same (hf : ∀ x, (f x).core = x.core) : (c.modify n f).books = c.books := by
  rw [books_modify (g := id) hf, id, update_eq_self]

lemma books_touch {t : Nat} :
    (c.modify n fun node => { node with lastAccessTime := t }).books = c.books :=
  books_modify_same fun _ => rfl

/-- A node on the way is touched. -/
lemma touch_eq (t : Nat) (hb : c.books = b) (n : Nat) :
    ∃ c1, c.modify n (fun node => { node with lastAccessTime := t }) = c1 ∧ c1.books = b ∧
      c1.pageSize = b.pageSize ∧ (c1.heap n).key = (b.node n).key ∧
      (c1.heap n).value = (b.node n).value := by
  have hb1 := (books_touch (n := n) (t := t)).trans hb
  exact ⟨_, rfl, hb1, hb1 ▸ rfl, hb1 ▸ rfl, hb1 ▸ rfl⟩

lemma books_raisePriority {priority : Int} :
    (c.raisePriority n priority).books = c.books := books_modify_same fun _ => rfl

lemma books_incHitCount {chunked : Bool} : (c.incHitCount n chunked).books = c.books := by
  rw [incHitCount]
  split
  · rfl
  · exact books_modify_same fun _ => rfl

lemma books_newNode (priority : Int) :
    (c.newNode priority).2.books = { c.books with
      counter := c.books.counter + 1
      node := update c.books.node c.books.counter ⟨∅, none, .empty, [], 0⟩ } := by
  have hnode : (fun m => ((c.newNode priority).2.heap m).core) =
      update c.books.node c.books.counter ⟨∅, none, .empty, [], 0⟩ := by
    funext m
    show (update c.heap c.counter _ m).core = _
    by_cases hm : m = c.counter
    · subst hm
      rw [update_self, show c.counter = c.books.counter from rfl, update_self]
      rfl
    · rw [update_of_ne hm, update_of_ne (show m ≠ c.books.counter from hm)]
      rfl
  rw [← hnode]
  rfl

variable {child k : Nat}

/-- The writes of `_split_node` are the split of the books. -/
lemma books_splitWrite (h : c.books.Shaped live path) (hc : child ∈ live)
    (childKey newKey : ChildKey) :
    (c.splitWrite child k (c.books.parentOf child) childKey newKey).2.books =
      c.books.split child k childKey newKey := by
  have hparent := h.parent hc
  have hcn := h.counter_ne (.inr hc)
  have hpn := h.counter_ne (h.trie.parent_mem hc)
  have hpc := h.parentOf_ne hc
  rw [splitWrite]
  rw [books_modify (g := fun p => { p with
      children := p.children.insert newKey c.books.counter }) fun _ => rfl,
    books_modify (g := fun x => { x with
      parent := some c.books.counter
      key := x.key.drop k
      value := x.value.drop k }) fun _ => rfl,
    books_modify (g := fun x => { x with
      children := AList.insert childKey child ∅
      parent := some (c.books.parentOf child)
      lockRef := (c.books.node child).lockRef
      key := (c.books.node child).key.take k
      value := (c.books.node child).value.take k }) fun _ => rfl, books_newNode]
  simp only [show (c.newNode (c.heap child).priority).1 = c.books.counter from rfl,
    update_idem, update_of_ne hcn, update_of_ne hpc,
    update_of_ne hpn]
  rw [split, splitNodes, hparent]

/-- **`_split_node` succeeds on an edge of the tree.** -/
theorem splitNode_ok (hb : c.books = b) (h : b.Shaped live path) (hc : child ∈ live)
    (hkl : k < (b.label child).length) :
    ∃ childKey newKey c', c.splitNode child (k * b.pageSize) = .ok (b.counter, c') ∧
      ((b.node child).key.drop (k * b.pageSize)).childKey b.pageSize = .ok childKey ∧
      (b.node child).key.childKey b.pageSize = .ok newKey ∧
      c'.books = b.split child (k * b.pageSize) childKey newKey := by
  subst hb
  have hle : c.books.pageSize ≤ ((c.books.node child).key.drop (k * c.books.pageSize)).len := by
    rw [(split_lens h hc hkl).2]
    exact Nat.le_mul_of_pos_left _ (Nat.sub_pos_of_lt hkl)
  obtain ⟨childKey, hck⟩ := childKey_ok hle
  obtain ⟨newKey, hnk⟩ := childKey_ok (h.le_len hc)
  have hparent : (c.heap child).parent = some (c.books.parentOf child) := h.parent hc
  refine ⟨childKey, newKey, _, ?_, hck, hnk, books_splitWrite h hc childKey newKey⟩
  rw [splitNode, show ((c.heap child).key.drop (k * c.books.pageSize)).childKey c.pageSize =
    .ok childKey from hck, hparent, show (c.heap child).key.childKey c.pageSize = .ok newKey from hnk]
  rfl

end RadixCache

/-! ## Trees that differ by splits -/

/-- A tree some of whose edges were split. -/
inductive Resplit (b : Books) (live : Finset Nat) (path : Nat → List Page) :
    Books → Finset Nat → (Nat → List Page) → Prop
  | same : Resplit b live path b live path
  | split {b₁ : Books} {live₁ : Finset Nat} {path₁ : Nat → List Page}
      (h : Resplit b live path b₁ live₁ path₁) {child k : Nat} {childKey newKey : ChildKey}
      (hc : child ∈ live₁) (hk : 0 < k) (hkl : k < (b₁.label child).length)
      (hck : ((b₁.node child).key.drop (k * b₁.pageSize)).childKey b₁.pageSize = .ok childKey)
      (hnk : (b₁.node child).key.childKey b₁.pageSize = .ok newKey) :
      Resplit b live path (b₁.split child (k * b₁.pageSize) childKey newKey)
        (insert b₁.counter live₁) (b₁.splitPath path₁ child k)

namespace Resplit

lemma trans {b₁ : Books} {live₁ : Finset Nat} {path₁ : Nat → List Page}
    (h : Resplit b live path b₁ live₁ path₁) (h' : Resplit b₁ live₁ path₁ b' live' path') :
    Resplit b live path b' live' path' := by
  induction h' with
  | same => exact h
  | split _ hc hk hkl hck hnk ih => exact .split ih hc hk hkl hck hnk

/-- Splits do not change what is fixed for a cache. -/
lemma consts (h : Resplit b live path b' live' path') :
    b'.pageSize = b.pageSize ∧ b'.rootNode = b.rootNode ∧ b'.isEagle = b.isEagle ∧
      b'.disable = b.disable := by
  induction h with
  | same => exact ⟨rfl, rfl, rfl, rfl⟩
  | split _ _ _ _ _ _ ih => exact ih

variable (hb : b.Shaped live path) (h : Resplit b live path b' live' path')
include hb h

lemma shaped : b'.Shaped live' path' := by
  induction h with
  | same => exact hb
  | split _ hc hk hkl hck hnk ih => exact shaped_split ih hc hk hkl hck hnk

/-- A split changes neither which prefixes are cached nor where. -/
lemma caches {p : List Page} {slots : List Nat} :
    b'.Caches live' path' p slots ↔ b.Caches live path p slots := by
  induction h with
  | same => exact Iff.rfl
  | split h hc _ hkl _ _ ih => exact (caches_split (h.shaped hb) hc hkl).trans ih

end Resplit

/-! ## Where a walk ends -/

/-- **The walk ended at the longest cached prefix** of the pages `ks`. -/
structure Reached (b : Books) (live : Finset Nat) (path : Nat → List Page) (ks : List Page)
    (b' : Books) (live' : Finset Nat) (path' : Nat → List Page) (last : Nat) : Prop where
  resplit : Resplit b live path b' live' path'
  mem : last = b'.rootNode ∨ last ∈ live'
  isPrefix : path' last <+: ks
  longest : (path' last).length < ks.length → ∀ slots,
    ¬ b.Caches live path (ks.take ((path' last).length + 1)) slots

/-- The slots `out` are those of the prefix `p`, page by page. -/
structure Fetched (b : Books) (live : Finset Nat) (path : Nat → List Page) (p : List Page)
    (out : List Nat) : Prop where
  length : out.length = p.length * b.pageSize
  slots : ∀ i < p.length, b.Caches live path (p.take (i + 1))
    ((out.drop (i * b.pageSize)).take b.pageSize)

section
variable {u child : Nat} {key : RadixKey} {ck : ChildKey} {out : List Nat}

lemma take_append_take {α : Type} (l m : List α) {i j : Nat} (hi : l.length + j = i) :
    (l ++ m).take i = l ++ m.take j := by
  simp [← hi, take_append]

section
variable (h : b.Shaped live path)

include h

/-- Going down one edge appends the slots of as much of it as matches. -/
lemma Fetched.step (hc : child ∈ live) (hpar : b.parentOf child = u)
    {m : Nat} (hm : m ≤ (b.label child).length) (hout : Fetched b live path (path u) out) :
    Fetched b live path (path u ++ (b.label child).take m)
      (out ++ (b.node child).value.take (m * b.pageSize)) := by
  have hval : (b.node child).value.length = (b.label child).length * b.pageSize :=
    (h.values hc).trans (h.aligned hc)
  have hle : m * b.pageSize ≤ (b.label child).length * b.pageSize := Nat.mul_le_mul_right _ hm
  constructor
  · simp [min_eq_left (hval.symm ▸ hle), min_eq_left hm, hout.length, add_mul]
  · intro i hi
    rw [length_append, length_take, min_eq_left hm] at hi
    rcases lt_or_ge i (path u).length with hlt | hge
    · have hlen : i * b.pageSize + b.pageSize ≤ out.length := by
        rw [hout.length, ← Nat.succ_mul]
        exact Nat.mul_le_mul_right _ hlt
      rw [take_append_of_le_length hlt, drop_append_of_le_length (by omega),
        take_append_of_le_length (by rw [length_drop]; omega)]
      exact hout.slots i hlt
    · obtain ⟨j, rfl⟩ := Nat.exists_eq_add_of_le hge
      have hj : j < m := by omega
      have hjps : j * b.pageSize + b.pageSize ≤ m * b.pageSize := by
        rw [← Nat.succ_mul]
        exact Nat.mul_le_mul_right _ hj
      rw [take_append_take _ _ (add_assoc _ j 1).symm, take_take,
        min_eq_left (by omega), add_mul, ← hout.length, drop_append,
        drop_eq_nil_of_le (Nat.le_add_right _ _), nil_append, Nat.add_sub_cancel_left,
        drop_take, take_take, min_eq_left (by omega), ← hpar]
      refine (h.trie.maps_iff hc (by omega)).2 (getElem?_chunks ?_)
      rw [hval, Nat.mul_div_cancel _ h.pos]
      omega

/-- A node without a child for the next page ends the longest cached prefix. -/
lemma not_caches_of_no_child (hu : u = b.rootNode ∨ u ∈ live)
    (hkey : b.pageSize ≤ key.len) (hck : key.childKey b.pageSize = .ok ck)
    (hnone : (b.node u).children.lookup ck = none) (slots : List Nat) :
    ¬ b.Caches live path ((path u ++ key.pages b.pageSize).take ((path u).length + 1)) slots := by
  intro hcache
  obtain ⟨n, hn, hend⟩ := h.trie.endsOn_of_maps hcache
  have hhead := head?_pages h.pos hkey
  refine h.trie.not_endsOn_of_no_edge (a := ⟨key.extraKey, key.cacheSalt,
    key.units.take b.pageSize⟩) hu (fun c hc hpar hhead' => ?_) ?_ hn hend
  · have hlook := (h.lookup_iff hu hkey hck).2 ⟨hc, hpar, hhead'.trans hhead.symm⟩
    cases hnone.symm.trans hlook
  · simp [take_append_take, take_one, hhead]

/-- What is found at a child: the pages its edge has in common with the key, at least one. -/
lemma matchLen_child (hu : u = b.rootNode ∨ u ∈ live)
    (hkey : b.pageSize ≤ key.len) (hck : key.childKey b.pageSize = .ok ck)
    (hlook : (b.node u).children.lookup ck = some child) :
    child ∈ live ∧ b.parentOf child = u ∧ 0 < commonLen (b.label child) (key.pages b.pageSize) ∧
      (b.node child).key.matchLen key b.pageSize =
        .ok (commonLen (b.label child) (key.pages b.pageSize) * b.pageSize) := by
  obtain ⟨hc, hpar, hhead⟩ := (h.lookup_iff hu hkey hck).1 hlook
  refine ⟨hc, hpar, ?_, matchLen_eq h.pos (sameSpace_of_head? h.pos (h.le_len hc) hkey hhead)⟩
  have hpos : 0 < (key.pages b.pageSize).length := by
    rw [length_pages]
    exact Nat.div_pos hkey h.pos
  refine le_commonLen_iff.2 ⟨h.trie.label_pos hc, hpos, ?_⟩
  rw [take_one, take_one, hhead]

/-- No cached prefix goes on where the key leaves an edge in the middle. -/
lemma not_caches_of_diverges (hc : child ∈ live)
    (hpar : b.parentOf child = u) {ps : List Page} (hpos : 0 < commonLen (b.label child) ps)
    (hlt : commonLen (b.label child) ps < (b.label child).length)
    (hlt' : commonLen (b.label child) ps < ps.length) (slots : List Nat) :
    ¬ b.Caches live path
      ((path u ++ ps).take ((path u).length + commonLen (b.label child) ps + 1)) slots := by
  intro hcache
  obtain ⟨n, hn, hend⟩ := h.trie.endsOn_of_maps hcache
  rw [take_append_take _ _ (add_assoc _ _ 1).symm] at hend
  have hpath : path child = path u ++ b.label child := hpar ▸ h.trie.path_eq hc
  -- The next page of the edge is another one.
  have hoff : ¬ ps.take (commonLen (b.label child) ps + 1) <+: b.label child := fun hpre => by
    have heq := prefix_iff_eq_take.1 hpre
    rw [length_take, min_eq_left hlt'] at heq
    exact absurd (le_commonLen_iff.2 ⟨hlt, hlt', heq.symm⟩) (Nat.not_succ_le_self _)
  refine h.trie.not_endsOn_of_diverges hc ?_ ?_ ?_ hn hend
  · have hone : (b.label child).take 1 = ps.take 1 := (le_commonLen_iff.1 hpos).2.2
    rw [Enters, hpar, prefix_append_right_inj, hone]
    exact take_prefix_take_left (Nat.le_add_left 1 _)
  · simp_all
  · rw [hpath, prefix_append_right_inj]
    intro hpre
    have hlen := hpre.length_le
    rw [length_take] at hlen
    have heq := hpre.eq_of_length (by rw [length_take]; omega)
    exact hoff ⟨[], (append_nil _).trans heq.symm⟩

/-- The key leaves an edge in the middle: the walk ends at the upper part. -/
lemma reached_split (hc : child ∈ live) (hpar : b.parentOf child = u)
    {ps : List Page} (hpos : 0 < commonLen (b.label child) ps)
    (hlt : commonLen (b.label child) ps < (b.label child).length) {childKey newKey : ChildKey}
    (hck : ((b.node child).key.drop (commonLen (b.label child) ps * b.pageSize)).childKey
      b.pageSize = .ok childKey)
    (hnk : (b.node child).key.childKey b.pageSize = .ok newKey) :
    Reached b live path (path u ++ ps)
      (b.split child (commonLen (b.label child) ps * b.pageSize) childKey newKey)
      (insert b.counter live) (b.splitPath path child (commonLen (b.label child) ps))
      b.counter := by
  have hlast : b.splitPath path child (commonLen (b.label child) ps) b.counter =
      path u ++ ps.take (commonLen (b.label child) ps) := by
    rw [splitPath, update_self, hpar, take_commonLen]
  have hle := commonLen_le_right (b.label child) ps
  refine ⟨.split .same hc hpos hlt hck hnk, .inr (Finset.mem_insert_self _ _), ?_, ?_⟩
  · rw [hlast, prefix_append_right_inj]
    exact take_prefix _ _
  · rw [hlast, length_append, length_append, length_take, min_eq_left hle]
    exact fun hlt' => not_caches_of_diverges h hc hpar hpos hlt (by omega)

end
end

/-! ## The walks -/

variable {ps : Nat} {key : RadixKey}

lemma pages_eq_nil (h : key.len = 0) : key.pages ps = [] := by
  rw [← length_eq_zero_iff, length_pages, h, Nat.zero_div]

lemma drop_aligned {m : Nat} (hal : key.len = (key.pages ps).length * ps) :
    (key.drop (m * ps)).len = ((key.drop (m * ps)).pages ps).length * ps ∧
      (key.drop (m * ps)).len = key.len - m * ps := by
  grind [length_units, units_drop, pages_drop, Nat.sub_mul]

lemma le_len_of_aligned (hal : key.len = (key.pages ps).length * ps) (hne : key.len ≠ 0) :
    ps ≤ key.len := by
  rcases Nat.eq_zero_or_pos (key.pages ps).length with hzero | hpos
  · grind
  · rw [hal]
    exact Nat.le_mul_of_pos_left _ hpos

namespace RadixCache

lemma ofKey_ok_bind {α β : Type} (a : α) (f : α → Except RadixFault β) :
    (ofKey (.ok a) >>= f) = f a := rfl

lemma ok_bind {α β : Type} (a : α) (f : α → Except RadixFault β) :
    ((.ok a : Except RadixFault α) >>= f) = f a := rfl

/-- **`_match_prefix_helper` finds the longest cached prefix**, and its slots. -/
theorem matchLoop_spec (t : Nat) (h : b.Shaped live path) : ∀ {fuel} {c : RadixCache}
    {node : Nat} {key : RadixKey} {acc}, c.books = b →
    (node = b.rootNode ∨ node ∈ live) → key.len = (key.pages b.pageSize).length * b.pageSize →
    key.len < fuel → Fetched b live path (path node) acc →
    ∃ out last c' live' path', matchLoop t fuel c node key acc = .ok (out, last, c') ∧
      Reached b live path (path node ++ key.pages b.pageSize) c'.books live' path' last ∧
      Fetched b live path (path' last) out
  | 0, _, _, _, _, _, _, _, hfuel, _ => absurd hfuel (Nat.not_lt_zero _)
  | fuel + 1, c, node, key, acc, hb, hnode, hal, hfuel, hacc => by
    have hps : c.pageSize = b.pageSize := hb ▸ rfl
    rw [matchLoop]
    split
    · rename_i hzero
      refine ⟨acc, node, c, live, path, rfl, ?_, hacc⟩
      rw [hb, pages_eq_nil hzero, append_nil]
      exact ⟨.same, hnode, prefix_refl _, fun hlt => absurd hlt (lt_irrefl _)⟩
    rename_i hne
    have hkey := le_len_of_aligned hal hne
    obtain ⟨ck, hck⟩ := childKey_ok hkey
    have hchildren : (c.heap node).children = (b.node node).children := hb ▸ rfl
    rw [hps, hck, ofKey_ok_bind, hchildren]
    cases hlook : (b.node node).children.lookup ck with
    | none =>
      refine ⟨acc, node, c, live, path, rfl, ?_, hacc⟩
      rw [hb]
      exact ⟨.same, hnode, prefix_append _ _, fun _ =>
        not_caches_of_no_child h hnode hkey hck hlook⟩
    | some child =>
      obtain ⟨hc, hpar, hpos, hmatch⟩ := matchLen_child h hnode hkey hck hlook
      obtain ⟨c1, hc1, hb1, hps1, hkeyeq, hvaleq⟩ := touch_eq t hb child
      simp only
      rw [hc1, hkeyeq, hps1, hmatch, ofKey_ok_bind, h.aligned hc]
      have htake := take_commonLen (b.label child) (key.pages b.pageSize)
      have hle := commonLen_le_left (b.label child) (key.pages b.pageSize)
      split
      · rename_i hlt
        have hlt := Nat.lt_of_mul_lt_mul_right hlt
        obtain ⟨childKey, newKey, c2, hsplit, hck2, hnk2, hb2⟩ := splitNode_ok hb1 h hc hlt
        have hval : (c2.heap b.counter).value = (b.node child).value.take
            (commonLen (b.label child) (key.pages b.pageSize) * b.pageSize) := by
          have hnode : c2.books.node b.counter = _ := hb2 ▸ split_node_new h hc
          exact congrArg NodeCore.value hnode
        rw [hsplit, ok_bind]
        refine ⟨_, _, c2, _, _, rfl, hb2 ▸ reached_split h hc hpar hpos hlt hck2 hnk2, ?_⟩
        rw [splitPath, update_self, hpar, hval]
        exact hacc.step h hc hpar hle
      · rename_i hge
        -- The whole edge is on the way.
        have hall : commonLen (b.label child) (key.pages b.pageSize) = (b.label child).length :=
          le_antisymm hle (Nat.le_of_not_lt fun hlt => hge (Nat.mul_lt_mul_of_pos_right hlt h.pos))
        have hpath : path child = path node ++ b.label child := hpar ▸ h.trie.path_eq hc
        have hwhole : (b.label child).length * b.pageSize = (b.node child).value.length :=
          ((h.values hc).trans (h.aligned hc)).symm
        have hacc' := hacc.step h hc hpar (le_refl _)
        rw [take_length, ← hpath, hwhole, take_length] at hacc'
        rw [hall, take_length] at htake
        obtain ⟨hal', hlen'⟩ := drop_aligned (m := (b.label child).length) hal
        have hdrop := key.pages_drop b.pageSize (b.label child).length
        have hrest : path node ++ key.pages b.pageSize = path child ++
            (key.drop ((b.label child).length * b.pageSize)).pages b.pageSize := by
          rw [hdrop, hpath, append_assoc, htake, length_take, ← hall,
            min_eq_left (commonLen_le_right _ _), take_append_drop]
        rw [hall, hvaleq, hrest]
        refine matchLoop_spec t h hb1 (.inr hc) hal' ?_ hacc'
        have := Nat.mul_pos (h.trie.label_pos hc) h.pos
        omega

/-- **Where the walk of an insertion ends**, `d` pages further down. -/
structure Descended (b : Books) (live : Finset Nat) (path : Nat → List Page) (w : InsertWalk)
    (b' : Books) (live' : Finset Nat) (path' : Nat → List Page) (w' : InsertWalk) (d : Nat) :
    Prop where
  reached : Reached b live path (path w.node ++ w.key.pages b.pageSize) b' live' path' w'.node
  le : d ≤ (w.key.pages b.pageSize).length
  path_eq : path' w'.node = path w.node ++ (w.key.pages b.pageSize).take d
  pages : w'.key.pages b.pageSize = (w.key.pages b.pageSize).drop d
  len : w'.key.len = w.key.len - d * b.pageSize
  value : w'.value = w.value.drop (d * b.pageSize)
  total : w'.totalPrefixLength = w.totalPrefixLength + d * b.pageSize
  space : RadixKey.SameSpace w'.key w.key
  /-- If something is left, no child has its first page. -/
  stuck : w'.key.len ≠ 0 → ∃ ck, w'.key.childKey b.pageSize = .ok ck ∧
    (b'.node w'.node).children.lookup ck = none

variable {w : InsertWalk}

/-- A step down, to a node `n` at the end of `m` pages, and the rest of the walk. -/
lemma Descended.step {b₁ : Books} {live₁ : Finset Nat} {path₁ : Nat → List Page}
    {w' : InsertWalk} {n m d : Nat} (hb : b.Shaped live path)
    (hsplit : Resplit b live path b₁ live₁ path₁) (hm : m ≤ (w.key.pages b.pageSize).length)
    (hn : path₁ n = path w.node ++ (w.key.pages b.pageSize).take m)
    (h : Descended b₁ live₁ path₁ ⟨n, w.key.drop (m * b.pageSize), w.value.drop (m * b.pageSize),
      w.totalPrefixLength + m * b.pageSize⟩ b' live' path' w' d) :
    Descended b live path w b' live' path' w' (m + d) := by
  obtain ⟨hps, hroot, -⟩ := hsplit.consts
  obtain ⟨hreach, hle, hpath, hpages, hlen, hvalue, htotal, hspace, hnone⟩ := h
  rw [hps] at hle hpath hpages hlen hvalue htotal hnone hreach
  simp only [pages_drop, hn] at hle hpath hpages hreach
  rw [length_drop] at hle
  rw [append_assoc, take_append_drop] at hreach
  constructor
  · refine ⟨hsplit.trans hreach.resplit, hreach.mem, hreach.isPrefix, fun hlt slots hcache => ?_⟩
    exact hreach.longest hlt slots ((hsplit.caches hb).2 hcache)
  · omega
  · rw [hpath, append_assoc, take_add]
  · rw [hpages, drop_drop]
  · rw [hlen, ← length_units, units_drop, length_drop, length_units, add_mul]
    omega
  · rw [hvalue, drop_drop, add_mul]
  · rw [htotal, add_mul, ← add_assoc]
  · obtain ⟨hx, hs, hbi⟩ : RadixKey.SameSpace (w.key.drop (m * b.pageSize)) w.key :=
      w.key.getItem_sameSpace _ _
    exact ⟨hspace.1.trans hx, hspace.2.1.trans hs, hspace.2.2.trans hbi⟩
  · exact hnone

/-- The walk stops where the key ends or where no child goes on. -/
lemma Descended.stay (hnode : w.node = b.rootNode ∨ w.node ∈ live)
    (hlongest : (path w.node).length < (path w.node ++ w.key.pages b.pageSize).length → ∀ slots,
      ¬ b.Caches live path
        ((path w.node ++ w.key.pages b.pageSize).take ((path w.node).length + 1)) slots)
    (hnone : w.key.len ≠ 0 → ∃ ck, w.key.childKey b.pageSize = .ok ck ∧
      (b.node w.node).children.lookup ck = none) : Descended b live path w b live path w 0 where
  reached := ⟨.same, hnode, prefix_append _ _, hlongest⟩
  le := Nat.zero_le _
  path_eq := by rw [take_zero, append_nil]
  pages := by rw [drop_zero]
  len := by rw [Nat.zero_mul, Nat.sub_zero]
  value := by rw [Nat.zero_mul, drop_zero]
  total := by rw [Nat.zero_mul, add_zero]
  space := ⟨rfl, rfl, rfl⟩
  stuck := hnone

/-- **The walk of `_insert_helper` ends at the longest cached prefix.** -/
theorem insertLoop_spec (t : Nat) (priority : Int) (chunked : Bool) : ∀ {fuel} {b : Books}
    {live : Finset Nat} {path : Nat → List Page} {c : RadixCache} {w : InsertWalk},
    b.Shaped live path → c.books = b → (w.node = b.rootNode ∨ w.node ∈ live) →
    w.key.len = (w.key.pages b.pageSize).length * b.pageSize → w.key.len < fuel →
    ∃ w' c' live' path' d, insertLoop t priority chunked fuel c w = .ok (w', c') ∧
      Descended b live path w c'.books live' path' w' d
  | 0, _, _, _, _, _, _, _, _, _, hfuel => absurd hfuel (Nat.not_lt_zero _)
  | fuel + 1, b, live, path, c, w, h, hb, hnode, hal, hfuel => by
    have hps : c.pageSize = b.pageSize := hb ▸ rfl
    rw [insertLoop]
    split
    · rename_i hzero
      refine ⟨w, c, live, path, 0, rfl, ?_⟩
      rw [hb]
      refine .stay hnode (fun hlt => ?_) fun hne => absurd hzero hne
      rw [pages_eq_nil hzero, append_nil] at hlt
      exact absurd hlt (lt_irrefl _)
    rename_i hne
    have hkey := le_len_of_aligned hal hne
    obtain ⟨ck, hck⟩ := childKey_ok hkey
    have hchildren : (c.heap w.node).children = (b.node w.node).children := hb ▸ rfl
    rw [hps, hck, ofKey_ok_bind, hchildren]
    cases hlook : (b.node w.node).children.lookup ck with
    | none =>
      refine ⟨w, c, live, path, 0, rfl, ?_⟩
      rw [hb]
      exact .stay hnode (fun _ => not_caches_of_no_child h hnode hkey hck hlook)
        fun _ => ⟨ck, hck, hlook⟩
    | some child =>
      obtain ⟨hc, hpar, hpos, hmatch⟩ := matchLen_child h hnode hkey hck hlook
      obtain ⟨c1, hc1, hb1, hps1, hkeyeq, -⟩ := touch_eq t hb child
      simp only
      rw [hc1, hkeyeq, hps1, hmatch, ofKey_ok_bind, h.aligned hc]
      have htake := take_commonLen (b.label child) (w.key.pages b.pageSize)
      have hle := commonLen_le_left (b.label child) (w.key.pages b.pageSize)
      have hle' := commonLen_le_right (b.label child) (w.key.pages b.pageSize)
      generalize commonLen (b.label child) (w.key.pages b.pageSize) = m at *
      obtain ⟨hal', hlen'⟩ := drop_aligned (m := m) hal
      have hfuel' : (w.key.drop (m * b.pageSize)).len < fuel := by
        have := Nat.mul_pos hpos h.pos
        omega
      split
      · rename_i hlt
        have hlt := Nat.lt_of_mul_lt_mul_right hlt
        obtain ⟨childKey, newKey, c2, hsplit, hck2, hnk2, hb2⟩ := splitNode_ok hb1 h hc hlt
        have hre : Resplit b live path _ _ _ := .split .same hc hpos hlt hck2 hnk2
        rw [← hb2] at hre
        rw [hsplit, ok_bind]
        have hb3 : ((c2.raisePriority b.counter priority).incHitCount b.counter chunked).books =
            c2.books := books_incHitCount.trans books_raisePriority
        obtain ⟨w', c', live', path', d, hloop, hdesc⟩ := insertLoop_spec t priority chunked
          (w := ⟨b.counter, w.key.drop (m * b.pageSize), w.value.drop (m * b.pageSize),
            w.totalPrefixLength + m * b.pageSize⟩) (hre.shaped h) hb3
          (.inr (Finset.mem_insert_self _ _)) (hre.consts.1.symm ▸ hal') hfuel'
        refine ⟨w', c', live', path', m + d, hloop, .step h hre hle' ?_ hdesc⟩
        rw [splitPath, update_self, hpar, htake]
      · rename_i hge
        have hall : m = (b.label child).length := le_antisymm hle (Nat.le_of_not_lt fun hlt =>
          hge (Nat.mul_lt_mul_of_pos_right hlt h.pos))
        have hb2 : ((c1.raisePriority child priority).incHitCount child chunked).books = b :=
          (books_incHitCount.trans books_raisePriority).trans hb1
        obtain ⟨w', c', live', path', d, hloop, hdesc⟩ := insertLoop_spec t priority chunked
          (w := ⟨child, w.key.drop (m * b.pageSize), w.value.drop (m * b.pageSize),
            w.totalPrefixLength + m * b.pageSize⟩) h hb2 (.inr hc) hal' hfuel'
        refine ⟨w', c', live', path', m + d, hloop, .step h .same hle' ?_ hdesc⟩
        rw [h.trie.path_eq hc, hpar, ← htake, hall, take_length]

/-! ## The operations -/

/-- The key as the tree sees it. -/
def treeKey (c : RadixCache) (key : RadixKey) : RadixKey :=
  (key.maybeToBigramView c.isEagle (none : Option (List Nat))).1

/-- The key a call is given, as the tree compares it. -/
lemma maybeToBigramView_fst {value : Option (List Nat)} {key : RadixKey} :
    (key.maybeToBigramView c.isEagle value).1 = c.treeKey key := by
  grind [treeKey, maybeToBigramView]

lemma pages_pageAligned {ps : Nat} (hps : 0 < ps) (key : RadixKey) :
    (key.pageAligned ps).pages ps = key.pages ps := by
  grind [pageAligned, pages_take, length_pages]

lemma len_pageAligned {ps : Nat} (key : RadixKey) :
    (key.pageAligned ps).len = ((key.pageAligned ps).pages ps).length * ps := by
  rw [length_pages, pageAligned]
  split
  · grind
  · grind [length_units, units_take, Nat.div_mul_le_self, Nat.mul_div_cancel]

lemma fetched_root (h : b.Shaped live path) : Fetched b live path (path b.rootNode) [] := by
  rw [h.trie.path_root]
  exact ⟨(Nat.zero_mul _).symm, fun i hi => absurd hi (Nat.not_lt_zero _)⟩

lemma reached_nil (h : b.Shaped live path) : Reached b live path [] b live path b.rootNode := by
  refine ⟨.same, .inl rfl, ?_, fun hlt => absurd hlt (Nat.not_lt_zero _)⟩
  rw [h.trie.path_root]

/-- **`match_prefix`.**  A cache that is not used holds nothing. -/
theorem matchPrefix_spec (h : c.books.Shaped live path) (hdis : c.disable = true → live = ∅)
    (key : RadixKey) :
    ∃ res c' live' path', c.matchPrefix key = .ok (res, c') ∧
      Reached c.books live path ((c.treeKey key).pages c.pageSize) c'.books live' path'
        res.lastDeviceNode ∧
      Fetched c.books live path (path' res.lastDeviceNode) res.deviceIndices := by
  have hal : (((c.treeKey key).pageAligned c.pageSize)).len = _ := len_pageAligned (c.treeKey key)
  have hpages := pages_pageAligned h.pos (c.treeKey key)
  rw [matchPrefix]
  simp only [maybeToBigramView_fst]
  split
  · rename_i hempty
    refine ⟨⟨[], c.rootNode⟩, c, live, path, rfl, ?_, fetched_root h⟩
    rcases Bool.or_eq_true _ _ ▸ hempty with hd | hzero
    · refine ⟨.same, .inl rfl, ?_, fun _ slots hcache => ?_⟩
      · rw [show path c.rootNode = [] from h.trie.path_root]
        exact nil_prefix
      · obtain ⟨n, hn, -⟩ := hcache
        rw [hdis hd] at hn
        exact absurd hn (Finset.notMem_empty n)
    · rw [pages_eq_nil (of_decide_eq_true hzero)]
      exact reached_nil h
  · split
    · rename_i hzero
      refine ⟨⟨[], c.rootNode⟩, c, live, path, rfl, ?_, fetched_root h⟩
      rw [show (c.treeKey key).pages c.pageSize = [] from
        (pages_pageAligned h.pos _).symm.trans (pages_eq_nil hzero)]
      exact reached_nil h
    · have hb : ((c.monotonic.2).modify c.rootNode fun node =>
          { node with lastAccessTime := c.monotonic.1 }).books = c.books := books_touch
      obtain ⟨out, last, c', live', path', hloop, hreach, hfetch⟩ := matchLoop_spec c.monotonic.1 h
        hb (.inl rfl) hal (Nat.lt_succ_self _) (fetched_root h)
      rw [h.trie.path_root, nil_append] at hreach
      refine ⟨⟨out, last⟩, c', live', path', ?_, hpages ▸ hreach, hfetch⟩
      rw [show c.matchPrefixHelper c.rootNode _ = .ok (out, last, c') from hloop]
      rfl

end RadixCache

/-- The leaf set after `_update_leaf_status`. -/
def Books.leafStatus (b : Books) (n : Nat) : List Nat :=
  if 0 < (b.node n).lockRef ∨ (b.node n).children.entries ≠ [] then b.evictableLeaves.erase n
  else if n ∈ b.evictableLeaves then b.evictableLeaves
  else n :: b.evictableLeaves

/-- The books after a leaf was hung up and the leaf set brought up to date. -/
def Books.hung (b : Books) (u : Nat) (ck : ChildKey) (key : RadixKey) (value : List Nat) : Books :=
  let leaves := (b.hang u ck key value b.evictableLeaves).leafStatus u
  b.hang u ck key value ((b.hang u ck key value leaves).leafStatus b.counter)

namespace RadixCache

lemma books_updateLeafStatus (n : Nat) : (c.updateLeafStatus n).books =
    { c.books with evictableLeaves := c.books.leafStatus n } := by
  rw [updateLeafStatus, leafStatus]
  show _ = { c.books with evictableLeaves := if 0 < (c.heap n).lockRef ∨
    (c.heap n).children.entries ≠ [] then c.evictableLeaves.erase n
    else if n ∈ c.evictableLeaves then c.evictableLeaves else n :: c.evictableLeaves }
  split
  · rfl
  · split <;> rfl

variable {u : Nat}

/-- The writes for a new leaf are the new leaf of the books. -/
lemma books_hangLeaf (hu : u ≠ c.books.counter) (ck : ChildKey) (key : RadixKey)
    (value : List Nat) (priority : Int) (chunked : Bool) :
    (c.hangLeaf u ck key value priority chunked).2.books =
      c.books.hang u ck key value c.books.evictableLeaves := by
  -- The leaf is made, hung up and, when it counts as a hit, counted.
  have hleaf : (((c.newNode priority).2.modify c.books.counter fun new =>
      { new with parent := some u, key := key, value := value }).incHitCount c.books.counter
        chunked).books = { c.books with
          counter := c.books.counter + 1
          node := update c.books.node c.books.counter ⟨∅, some u, key, value, 0⟩ } := by
    rw [books_incHitCount, books_modify (g := fun x => { x with
      parent := some u, key := key, value := value }) fun _ => rfl, books_newNode]
    simp only [update_idem, update_self]
  have hbooks : (c.hangLeaf u ck key value priority chunked).2.books =
      { ((((c.newNode priority).2.modify c.books.counter fun new =>
        { new with parent := some u, key := key, value := value }).incHitCount c.books.counter
          chunked).modify u fun p => { p with
            children := p.children.insert ck c.books.counter }).books with
        evictableSize := (((c.newNode priority).2.modify c.books.counter fun new =>
        { new with parent := some u, key := key, value := value }).incHitCount c.books.counter
          chunked).books.evictableSize + key.len } := rfl
  rw [hbooks, books_modify (g := fun p => { p with
    children := p.children.insert ck c.books.counter }) fun _ => rfl, hleaf]
  simp only [update_of_ne hu]
  rfl

lemma books_addLeaf (hu : u ≠ c.books.counter) (ck : ChildKey) (key : RadixKey)
    (value : List Nat) (priority : Int) (chunked : Bool) :
    (c.addLeaf u ck key value priority chunked).2.books = c.books.hung u ck key value := by
  rw [addLeaf]
  rw [books_updateLeafStatus, books_updateLeafStatus, books_hangLeaf hu]
  rfl

/-- **What an insertion of the pages `ks` leaves**: the first `L` were there, and the others hang
from a new leaf. -/
inductive Inserted (b : Books) (live : Finset Nat) (path : Nat → List Page) (ks : List Page)
    (value : List Nat) : Books → Finset Nat → (Nat → List Page) → Nat → Nat → Prop
  | found {b' : Books} {live' : Finset Nat} {path' : Nat → List Page} {last : Nat}
      (h : Reached b live path ks b' live' path' last) (hall : path' last = ks) :
      Inserted b live path ks value b' live' path' ks.length last
  | grown {b' : Books} {live' : Finset Nat} {path' : Nat → List Page} {u : Nat} {ck : ChildKey}
      {key : RadixKey} (h : Reached b live path ks b' live' path' u)
      (hlt : (path' u).length < ks.length)
      (hang : Books.Hangs b' live' path' u ck key (value.drop ((path' u).length * b.pageSize)))
      (hpages : key.pages b.pageSize = ks.drop (path' u).length) :
      Inserted b live path ks value
        (b'.hung u ck key (value.drop ((path' u).length * b.pageSize)))
        (Insert.insert b'.counter live') (b'.hangPath path' u key) (path' u).length b'.counter

namespace Inserted
variable {ks : List Page} {value : List Nat} {L last : Nat}

lemma shaped (h : b.Shaped live path)
    (hins : Inserted b live path ks value b' live' path' L last) : b'.Shaped live' path' := by
  cases hins with
  | found hreach => exact hreach.resplit.shaped h
  | grown hreach _ hang _ => exact shaped_hang (hreach.resplit.shaped h) hang

lemma le (hins : Inserted b live path ks value b' live' path' L last) : L ≤ ks.length := by
  cases hins with
  | found => exact le_refl _
  | grown _ hlt => exact hlt.le

/-- An insert goes along what is cached as far as that goes, so it adds all that is missing. -/
lemma longest (hins : Inserted b live path ks value b' live' path' L last) (hlt : L < ks.length)
    (slots : List Nat) : ¬ b.Caches live path (ks.take (L + 1)) slots := by
  cases hins with
  | found => exact absurd hlt (lt_irrefl _)
  | grown hreach => exact hreach.longest hlt slots

variable {i : Nat}

/-- Every page on the way to a node is cached. -/
lemma caches_of_isPrefix (h : b.Shaped live path) {n : Nat} (hn : n = b.rootNode ∨ n ∈ live)
    (hi : i < (path n).length) : ∃ slots, b.Caches live path ((path n).take (i + 1)) slots := by
  have hmem := h.trie.mem_of_path_ne_nil hn (ne_nil_of_length_pos (Nat.zero_lt_of_lt hi))
  obtain ⟨m, hm, hend, -⟩ := h.trie.exists_endsOn (p := (path n).take (i + 1)) hmem
    (ne_nil_of_length_pos (by rw [length_take]; omega)) ( take_prefix _ _)
  obtain ⟨j, hj, heq⟩ := (h.trie.endsOn_iff hm).1 hend
  have hlen : j < (b.node m).value.length / b.pageSize := by
    rwa [h.values hm, h.aligned hm, Nat.mul_div_cancel _ h.pos]
  exact ⟨_, m, hm, j, hj, heq, getElem?_chunks hlen⟩

lemma cached (h : b.Shaped live path)
    (hins : Inserted b live path ks value b' live' path' L last) (hi : i < L) :
    ∃ slots, b.Caches live path (ks.take (i + 1)) slots := by
  cases hins with
  | found hreach hall =>
    obtain ⟨slots, hslots⟩ := caches_of_isPrefix (hreach.resplit.shaped h) hreach.mem (hall ▸ hi)
    exact ⟨slots, (hreach.resplit.caches h).1 (hall ▸ hslots)⟩
  | grown hreach =>
    obtain ⟨slots, hslots⟩ := caches_of_isPrefix (hreach.resplit.shaped h) hreach.mem hi
    rw [hreach.resplit.caches h, prefix_iff_eq_take.1 hreach.isPrefix, take_take,
      min_eq_left hi] at hslots
    exact ⟨slots, hslots⟩

/-- **An insertion adds the prefixes that were not there, with their slots.** -/
theorem caches (h : b.Shaped live path)
    (hins : Inserted b live path ks value b' live' path' L last) {p : List Page}
    {slots : List Nat} :
    b'.Caches live' path' p slots ↔ b.Caches live path p slots ∨ ∃ j, L ≤ j ∧ j < ks.length ∧
      p = ks.take (j + 1) ∧ (chunks b.pageSize value)[j]? = some slots := by
  cases hins with
  | found hreach =>
    simp_all [hreach.resplit.caches h]
  | @grown _ _ path₁ u _ _ hreach hlt hang hpages =>
    have hps := hreach.resplit.consts.1
    have hks : ∀ i, ks.take ((path₁ u).length + i) = path₁ u ++ (ks.drop (path₁ u).length).take i :=
      fun i => by rw [take_add, ← prefix_iff_eq_take.1 hreach.isPrefix]
    rw [hung, caches_hang (hreach.resplit.shaped h) hang, hreach.resplit.caches h, hps,
      hpages, chunks_drop, length_drop]
    refine or_congr_right ⟨?_, ?_⟩
    · grind
    · rintro ⟨j, hle, hj, heq, hslots⟩
      obtain ⟨i, rfl⟩ := Nat.exists_eq_add_of_le hle
      refine ⟨i, by omega, ?_, ?_⟩
      · rw [heq, add_assoc, hks]
      · rwa [getElem?_drop]

end Inserted

/-- A slot for each unit. -/
def InsertParams.Fits (c : RadixCache) (params : InsertParams) : Prop :=
  ∀ value, params.value = some value →
    ((c.treeKey params.key).pageAligned c.pageSize).len ≤ value.length

/-- The slots an insertion is about. -/
def insertValue (c : RadixCache) (params : InsertParams) : List Nat :=
  let key := (c.treeKey params.key).pageAligned c.pageSize
  (params.value.map (take key.len)).getD ((key.tokenIds.take key.len).map Int.toNat)

lemma len_pageAligned_le (ps : Nat) (key : RadixKey) : (key.pageAligned ps).len ≤ key.len := by
  grind [pageAligned, length_units, units_take]

variable {params : InsertParams}

/-- The slots of an insert are as many as the whole pages of its key have units. -/
lemma length_insertValue (hfits : InsertParams.Fits c params) :
    (c.insertValue params).length = ((c.treeKey params.key).pageAligned c.pageSize).len := by
  rw [insertValue]
  cases hvalue : params.value with
  | some value => exact length_take_of_le (hfits value hvalue)
  | none =>
    generalize (c.treeKey params.key).pageAligned c.pageSize = key
    have hle : key.len ≤ key.tokenIds.length := by
      grind [key.rawLen_le, len]
    rw [Option.map_none, Option.getD_none, length_map, length_take_of_le hle]

lemma maybeToBigramView_take {value : Option (List Nat)} {key : RadixKey} {n : Nat}
    (hn : n ≤ (c.treeKey key).len) :
    (key.maybeToBigramView c.isEagle value).2.map (take n) = value.map (take n) := by
  rw [treeKey, maybeToBigramView] at hn
  rw [maybeToBigramView]
  split
  · rename_i hflip
    cases value with
    | none => rfl
    | some value =>
      grind
  · rfl

/-- What `insert` passes on. -/
lemma insert_eq (hdis : c.disable = false) (params : InsertParams) :
    c.insert params = (c.insertHelper c.rootNode ((c.treeKey params.key).pageAligned c.pageSize)
      (c.insertValue params) params.priority params.chunked >>=
        fun res => .ok (⟨res.1, some res.2.1⟩, res.2.2)) := by
  grind [insert, insertValue, maybeToBigramView_fst, maybeToBigramView_take, len_pageAligned_le]

/-- `_insert_helper` does not fail: it splits where needed, adds a leaf if something is missing, and
returns how much was there. -/
lemma insertHelper_spec (h : c.books.Shaped live path) {key : RadixKey} {value : List Nat}
    (hal : key.len = (key.pages c.pageSize).length * c.pageSize) (hvalue : value.length = key.len)
    (priority : Option Int) (chunked : Bool) :
    ∃ L last c' live' path', c.insertHelper c.rootNode key value priority chunked =
        .ok (L * c.pageSize, last, c') ∧
      Inserted c.books live path (key.pages c.pageSize) value c'.books live' path' L last := by
  -- The root is touched first.
  have hb : ((c.monotonic.2.modify c.rootNode fun node =>
      { node with lastAccessTime := c.monotonic.1 }).raisePriority c.rootNode
        (priority.getD 0)).books = c.books := books_raisePriority.trans books_touch
  rw [insertHelper]
  simp only
  generalize ((c.monotonic.2.modify c.rootNode fun node =>
    { node with lastAccessTime := c.monotonic.1 }).raisePriority c.rootNode
      (priority.getD 0)) = c1 at hb
  split
  · rename_i hzero
    rw [pages_eq_nil hzero]
    refine ⟨0, c.rootNode, c1, live, path, ?_, ?_⟩
    · rw [Nat.zero_mul]
    · rw [hb]
      exact .found (reached_nil h) h.trie.path_root
  obtain ⟨w, c2, live', path', d, hloop, hdesc⟩ := insertLoop_spec c.monotonic.1
    (priority.getD 0) chunked (w := ⟨c.rootNode, key, value, 0⟩) h hb (.inl rfl) hal
    (show key.len < key.len + 2 by omega)
  have hroot : path c.rootNode = [] := h.trie.path_root
  have hpath : path' w.node = (key.pages c.pageSize).take d := by
    rw [hdesc.path_eq, hroot]
    rfl
  have hreach : Reached c.books live path (key.pages c.pageSize) c2.books live' path' w.node := by
    have hreach := hdesc.reached
    rwa [hroot] at hreach
  have hd : (path' w.node).length = d := by
    rw [hpath]
    exact length_take_of_le hdesc.le
  have hps : c2.pageSize = c.pageSize := hreach.resplit.consts.1
  have htotal : w.totalPrefixLength = d * c.pageSize := by
    rw [hdesc.total, zero_add]
    rfl
  rw [hloop, ok_bind]
  split
  · rename_i hzero
    have hall : (key.pages c.pageSize).length = d := by
      refine le_antisymm (drop_eq_nil_iff.1 ?_) hdesc.le
      exact hdesc.pages.symm.trans (pages_eq_nil hzero)
    refine ⟨d, w.node, c2, live', path', by rw [htotal], ?_⟩
    rw [← hall] at hpath ⊢
    exact .found hreach (hpath.trans take_length)
  · rename_i hne
    obtain ⟨ck, hck, hnone⟩ := hdesc.stuck hne
    have hlen : w.key.len = key.len - d * c.pageSize := hdesc.len
    have hpages : w.key.pages c.pageSize = (key.pages c.pageSize).drop d := hdesc.pages
    have hval : w.value = value.drop (d * c.pageSize) := hdesc.value
    have hhang : Books.Hangs c2.books live' path' w.node ck w.key w.value := by
      refine ⟨hreach.mem, (congrArg w.key.childKey hps).trans hck, ?_, Nat.pos_of_ne_zero hne,
        ?_, hnone, ?_⟩
      · show w.key.len = (w.key.pages c2.pageSize).length * c2.pageSize
        rw [hps, hpages, length_drop, Nat.sub_mul, ← hal, hlen]
      · rw [hval, length_drop, hvalue, hlen]
      · intro pg hpg
        rw [hpath] at hpg
        obtain ⟨us, -, rfl⟩ := mem_map.1 (mem_of_mem_take hpg)
        exact ⟨hdesc.space.1.symm, hdesc.space.2.1.symm⟩
    have hu := (hreach.resplit.shaped h).counter_ne hreach.mem
    rw [hps, show w.key.childKey c.pageSize = .ok ck from hck, ofKey_ok_bind]
    refine ⟨d, _, _, Insert.insert c2.books.counter live', c2.books.hangPath path' w.node w.key,
      by rw [htotal], ?_⟩
    have hlt : d < (key.pages c.pageSize).length := by
      grind
    rw [books_addLeaf hu, hval]
    rw [hval] at hhang
    subst hd
    exact .grown hreach hlt hhang hpages

/-- **`insert`.** -/
theorem insert_spec (h : c.books.Shaped live path) (hdis : c.disable = false)
    (hfits : InsertParams.Fits c params) :
    ∃ L last c' live' path', c.insert params = .ok (⟨L * c.pageSize, some last⟩, c') ∧
      Inserted c.books live path ((c.treeKey params.key).pages c.pageSize) (c.insertValue params)
        c'.books live' path' L last := by
  obtain ⟨L, last, c', live', path', hhelper, hins⟩ := insertHelper_spec h
    (len_pageAligned (c.treeKey params.key)) (length_insertValue hfits) params.priority
    params.chunked
  refine ⟨L, last, c', live', path', ?_, pages_pageAligned h.pos (c.treeKey params.key) ▸ hins⟩
  rw [insert_eq hdis, hhelper]
  rfl

end RadixCache
end Sglang.Radix
