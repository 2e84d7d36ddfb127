import Sglang.Unified.Keys

/-!
# Page hashes in the unified tree

The parts of `unified_cache/unified_tree_core.py` that read or write `hash_value`, on keys of whole
pages.  The children of a node are the list of their subtrees, each found by the namespace and the
first page of its key, and a node is given by its namespace and the pages from the root to its end.

Left out: the component data of the nodes.  Whether a refill is dropped is therefore open.

* `Forest.Sound`: every hash in the tree is the chained hash of the pages from the root.  Splits,
  inserts, evictions and host inserts keep it (`State.Sound.next`), for any condition on pages.
* `storage_key_names_prefix`: so equal storage keys have equal namespaces and prefixes, if no page
  spells out a namespace.
* `storage_key_shared`: one that does shares its key with a page of that namespace.
-/

namespace Sglang.Unified
open List Lib Option

/-- The children of a node with all that is below them. -/
inductive Forest (w : ℕ) (H : Type)
  | nil
  | cons (ns : Namespace) (key : List (Page w)) (hashValue : Option (List H))
      (children rest : Forest w H)
  deriving DecidableEq

variable {w : ℕ} {H : Type} (digest : Option H → List ℕ → H)

/-- `RadixKey.match`, in pages -/
def matchLen : List (Page w) → List (Page w) → ℕ
  | p :: ps, q :: qs => if p = q then matchLen ps qs + 1 else 0
  | _, _ => 0

/-- `compute_node_hash_values`; `parent` is the `hash_value` of the parent. -/
def computeNodeHashValues (ns : Namespace) (parent : Option (List H)) (key : List (Page w)) :
    List H :=
  getStorageHashStr digest ns (parent.bind getLast?) key

namespace Forest

/-- `_split_node`: a new node over `m` pages of the old one, which keeps its children and gets
`sibling` beside it. -/
def splitNode (ns : Namespace) (key : List (Page w)) (hashValue : Option (List H)) (m : ℕ)
    (children sibling rest : Forest w H) : Forest w H :=
  .cons ns (key.take m) (hashValue.map (·.take m))
    (.cons ns (key.drop m) (hashValue.map (·.drop m)) children sibling) rest

/-- A new node for the rest of the key, if there is one. -/
def hang (leaf : Option (List H) → List (Page w) → List H → Forest w H)
    (parent : Option (List H)) (key : List (Page w)) (hashes : List H) : Forest w H :=
  if key = [] then .nil else leaf parent key hashes

/-- The walk of `insert` and of `insert_host`, which drops the hashes of the pages it has passed. -/
def graft (ns : Namespace) (leaf : Option (List H) → List (Page w) → List H → Forest w H) :
    Option (List H) → List (Page w) → List H → Forest w H → Forest w H
  | parent, key, hashes, .nil => hang leaf parent key hashes
  | parent, key, hashes, .cons ns' k h children rest =>
    if ns' = ns ∧ k.head? = key.head? then
      let m := matchLen k key
      if m < k.length then
        -- the rest of the key does not begin as the lower part does, so the walk ends
        splitNode ns' k h m children
          (hang leaf (h.map (·.take m)) (key.drop m) (hashes.drop m)) rest
      else .cons ns' k h (children.graft ns leaf h (key.drop m) (hashes.drop m)) rest
    else .cons ns' k h children (rest.graft ns leaf parent key hashes)

/-- `act` on the children of the node at the end of `path`. -/
def atAnchor (ns : Namespace) (act : Option (List H) → Forest w H → Option (Forest w H)) :
    Option (List H) → List (Page w) → Forest w H → Option (Forest w H)
  | parent, [], f => act parent f
  | _, _ :: _, .nil => none
  | parent, p :: ps, .cons ns' k h children rest =>
    if ns' = ns ∧ k <+: p :: ps then
      (children.atAnchor ns act h ((p :: ps).drop k.length)).map (.cons ns' k h · rest)
    else (rest.atAnchor ns act parent (p :: ps)).map (.cons ns' k h children ·)

/-- A split of the child that begins with `p`. -/
def splitChild (ns : Namespace) (p : Page w) (m : ℕ) : Forest w H → Option (Forest w H)
  | .nil => none
  | .cons ns' k h children rest =>
    if ns' = ns ∧ k.head? = some p then
      if 0 < m ∧ m < k.length then some (splitNode ns' k h m children .nil rest) else none
    else (rest.splitChild ns p m).map (.cons ns' k h children ·)

/-- The child that begins with `p` is removed, if it has no children. -/
def removeLeaf [DecidableEq H] (ns : Namespace) (p : Page w) : Forest w H → Option (Forest w H)
  | .nil => none
  | .cons ns' k h children rest =>
    if ns' = ns ∧ k.head? = some p then if children = .nil then some rest else none
    else (rest.removeLeaf ns p).map (.cons ns' k h children ·)

/-- `backfill_missing_hash_values` -/
def backfill : Option (List H) → Forest w H → Forest w H
  | _, .nil => .nil
  | parent, .cons ns k h children rest =>
    let h := h.getD (computeNodeHashValues digest ns parent k)
    .cons ns k (some h) (children.backfill (some h)) (rest.backfill parent)

end Forest

/-- `_add_new_node` -/
def newLeaf (hashing : Bool) (ns : Namespace) (parent : Option (List H)) (key : List (Page w))
    (_ : List H) : Forest w H :=
  .cons ns key (if hashing then some (computeNodeHashValues digest ns parent key) else none)
    .nil .nil

/-- The node that `insert_host` adds, unless the refill is dropped. -/
def hostLeaf (dropped : Bool) (ns : Namespace) (_ : Option (List H)) (key : List (Page w))
    (hashes : List H) : Forest w H :=
  if dropped then .nil else .cons ns key (some hashes) .nil .nil

structure State (w : ℕ) (H : Type) where
  tree : Forest w H
  /-- `enable_storage or enable_external_cache_linker` -/
  hashing : Bool

def State.start (hashing : Bool) : State w H := ⟨.nil, hashing⟩

/-- Nodes are named by their namespace and the pages from the root. -/
inductive Op (w : ℕ)
  | insert (ns : Namespace) (key : List (Page w))
  | split (ns : Namespace) (parent : List (Page w)) (p : Page w) (m : ℕ)
  | evict (ns : Namespace) (parent : List (Page w)) (p : Page w)
  /-- with the hashes of `key` computed from the last hash of the anchor -/
  | insertHost (ns : Namespace) (anchor key : List (Page w)) (dropped : Bool)
  /-- storage is turned on by `apply_runtime_config` -/
  | attach
  | detach

/-- The pages of a new key. -/
def Op.pages : Op w → List (Page w)
  | .insert _ key => key
  | .insertHost _ _ key _ => key
  | _ => []

def State.next [DecidableEq H] (s : State w H) : Op w → Option (State w H)
  | .insert ns key =>
    some { s with tree := s.tree.graft ns (newLeaf digest s.hashing ns) (some []) key [] }
  | .split ns parent p m =>
    (s.tree.atAnchor ns (fun _ f => f.splitChild ns p m) (some []) parent).map
      ({ s with tree := · })
  | .evict ns parent p =>
    (s.tree.atAnchor ns (fun _ f => f.removeLeaf ns p) (some []) parent).map ({ s with tree := · })
  | .insertHost ns anchor key dropped =>
    (s.tree.atAnchor ns (fun last f => last.map fun l =>
      f.graft ns (hostLeaf dropped ns) last key (getStorageHashStr digest ns l.getLast? key))
      (some []) anchor).map ({ s with tree := · })
  | .attach =>
    some ⟨if s.hashing then s.tree else s.tree.backfill digest (some []), true⟩
  | .detach => some { s with hashing := false }

/-! ## Nodes with the right hashes -/

/-- A node below `before`: its hashes, which it has if `full`, are those of the chain from the root.
`o` is the namespace of its parent, unless that is the root. -/
structure NodeOk (good : Page w → Prop) (full : Bool) (o : Option Namespace)
    (before : List (Page w)) (ns : Namespace) (key : List (Page w)) (h : Option (List H)) :
    Prop where
  namespace_eq : ∀ n ∈ o, n = ns
  ne_nil : key ≠ []
  good : ∀ p ∈ key, good p
  hash : ∀ l ∈ h, l = getHashStr digest (chained digest (storageNamespaceSeed digest ns) before) key
  full : full = true → h ≠ none

def Forest.Sound (good : Page w → Prop) (full : Bool) :
    Option Namespace → List (Page w) → Forest w H → Prop
  | _, _, .nil => True
  | o, before, .cons ns k h children rest =>
    NodeOk digest good full o before ns k h ∧ children.Sound good full (some ns) (before ++ k) ∧
      rest.Sound good full o before

/-- The hashes of a parent: the last one ends the chain of `before`. -/
structure Above (full : Bool) (o : Option Namespace) (before : List (Page w))
    (parent : Option (List H)) : Prop where
  last : ∀ l ∈ parent, ∀ ns, (∀ n ∈ o, n = ns) → l.getLast?.or (storageNamespaceSeed digest ns) =
    chained digest (storageNamespaceSeed digest ns) before
  full : full = true → parent ≠ none

variable {digest} {good : Page w → Prop} {full : Bool} {o : Option Namespace} {ns : Namespace}
  {before k key : List (Page w)} {h parent : Option (List H)} {f f' children rest : Forest w H}
  {m : ℕ}

lemma Above.root : Above digest full none ([] : List (Page w)) (some []) := by
  refine ⟨fun l hl _ _ => ?_, nofun⟩
  cases hl
  rfl

/-- A node that is in order is a parent in order for its children. -/
lemma NodeOk.above (hn : NodeOk digest good full o before ns k h) :
    Above digest full (some ns) (before ++ k) h := by
  refine ⟨fun l hl n hns => ?_, hn.full⟩
  cases hns ns rfl
  rw [hn.hash l hl, getLast?_getHashStr hn.ne_nil, chained_append]
  obtain ⟨ps, p, rfl⟩ := eq_nil_or_concat' k |>.resolve_left hn.ne_nil
  rw [chained_append]
  rfl

/-- `compute_node_hash_values` continues the chain of the parent. -/
lemma Above.compute (ha : Above digest full o before parent) (hp : parent ≠ none)
    (hns : ∀ n ∈ o, n = ns) : computeNodeHashValues digest ns parent key =
      getHashStr digest (chained digest (storageNamespaceSeed digest ns) before) key := by
  obtain ⟨l, rfl⟩ := ne_none_iff_exists'.1 hp
  exact congrArg (getHashStr digest · key) (ha.last l rfl ns hns)

/-- The upper half of a split node. -/
lemma NodeOk.upper (hn : NodeOk digest good full o before ns k h) (hm : 0 < m) :
    NodeOk digest good full o before ns (k.take m) (h.map (·.take m)) where
  namespace_eq := hn.namespace_eq
  ne_nil := by simp [hn.ne_nil, Nat.ne_of_gt hm]
  good p hp := hn.good p (mem_of_mem_take hp)
  hash l hl := by
    obtain ⟨l, h, rfl⟩ := map_eq_some_iff.1 hl
    rw [getHashStr_take, hn.hash l h]
  full := by simpa using hn.full

/-- The lower half of a split node, below the upper one. -/
lemma NodeOk.lower (hn : NodeOk digest good full o before ns k h) (hm : m < k.length) :
    NodeOk digest good full (some ns) (before ++ k.take m) ns (k.drop m) (h.map (·.drop m)) where
  namespace_eq := by simp
  ne_nil := by simpa using hm
  good p hp := hn.good p (mem_of_mem_drop hp)
  hash l hl := by
    obtain ⟨l, h, rfl⟩ := map_eq_some_iff.1 hl
    rw [chained_append, getHashStr_drop, hn.hash l h]
  full := by simpa using hn.full

namespace Forest

/-- A split moves hashes and computes none, and they still are those of the paths. -/
lemma Sound.splitNode (hn : NodeOk digest good full o before ns k h) (hm : 0 < m)
    (hlt : m < k.length) (hc : children.Sound digest good full (some ns) (before ++ k))
    (hs : f.Sound digest good full (some ns) (before ++ k.take m))
    (hr : rest.Sound digest good full o before) :
    (splitNode ns k h m children f rest).Sound digest good full o before := by
  refine ⟨hn.upper hm, ⟨hn.lower hlt, ?_, hs⟩, hr⟩
  rwa [append_assoc, take_append_drop]

/-! ## Walks -/

lemma take_matchLen : ∀ (a b : List (Page w)), a.take (matchLen a b) = b.take (matchLen a b)
  | [], _ => by simp [matchLen]
  | _ :: _, [] => by simp [matchLen]
  | p :: ps, q :: qs => by
    have := take_matchLen ps qs
    grind [matchLen]

lemma matchLen_pos {p : Page w} {a b : List (Page w)} (ha : a.head? = some p)
    (hb : b.head? = some p) : 0 < matchLen a b := by
  cases a <;> cases b <;> simp_all [matchLen]

/-- What a walk still has to add below `before`. -/
structure Pending (digest : Option H → List ℕ → H) (good : Page w → Prop) (host : Bool)
    (ns : Namespace) (before key : List (Page w)) (hashes : List H) : Prop where
  good : ∀ p ∈ key, good p
  hashes : host = true →
    hashes = getHashStr digest (chained digest (storageNamespaceSeed digest ns) before) key

lemma Pending.drop {host : Bool} {hashes : List H}
    (hp : Pending digest good host ns before key hashes) (m : ℕ) :
    Pending digest good host ns (before ++ key.take m) (key.drop m) (hashes.drop m) := by
  refine ⟨fun p h => hp.good p (mem_of_mem_drop h), fun hh => ?_⟩
  rw [chained_append, getHashStr_drop, hp.hashes hh]

variable {host : Bool} {hashes : List H}
  {leaf : Option (List H) → List (Page w) → List H → Forest w H}

/-- The new node of a walk is right wherever the walk ends. -/
def LeafOk (digest : Option H → List ℕ → H) (good : Page w → Prop) (full host : Bool)
    (ns : Namespace) (leaf : Option (List H) → List (Page w) → List H → Forest w H) : Prop :=
  ∀ {o before parent key hashes}, (∀ n ∈ o, n = ns) → Above digest full o before parent →
    Pending digest good host ns before key hashes → key ≠ [] →
    (leaf parent key hashes).Sound digest good full o before

/-- A new leaf is hashed in continuation of its parent. -/
lemma LeafOk.hang (hl : LeafOk digest good full host ns leaf) (ho : ∀ n ∈ o, n = ns)
    (ha : Above digest full o before parent)
    (hp : Pending digest good host ns before key hashes) :
    (Forest.hang leaf parent key hashes).Sound digest good full o before := by
  unfold Forest.hang
  split
  · trivial
  · rename_i hne
    exact hl ho ha hp hne

/-- Inserting a key (going down, splitting, and hanging the rest) keeps all hashes right. -/
lemma Sound.graft (hl : LeafOk digest good full host ns leaf) {f : Forest w H} :
    ∀ {o before parent key hashes}, f.Sound digest good full o before → (∀ n ∈ o, n = ns) →
    Above digest full o before parent → Pending digest good host ns before key hashes →
    (f.graft ns leaf parent key hashes).Sound digest good full o before := by
  induction f with
  | nil => exact fun _ ho ha hp => hl.hang ho ha hp
  | cons ns' k h children rest ihc ihr =>
    intro o before parent key hashes hf ho ha hp
    obtain ⟨hn, hc, hr⟩ := hf
    rw [Forest.graft]
    split
    · rename_i hfound
      obtain ⟨rfl, hhead⟩ := hfound
      obtain ⟨p, hk⟩ := ne_none_iff_exists'.1 (mt head?_eq_none_iff.1 hn.ne_nil)
      have hm := matchLen_pos hk (hhead ▸ hk)
      have htake := take_matchLen k key
      have hp := hp.drop (matchLen k key)
      dsimp only
      split
      · rename_i hlt
        refine Sound.splitNode hn hm hlt hc (hl.hang (by simp) (hn.upper hm).above ?_) hr
        rwa [htake]
      · rename_i hge
        refine ⟨hn, ihc hc (by simp) hn.above ?_, hr⟩
        rw [← htake, take_of_length_le (Nat.le_of_not_lt hge)] at hp
        exact hp
    · exact ⟨hn, hc, ihr hr ho ha hp⟩

lemma LeafOk.newLeaf : LeafOk digest good full false ns (newLeaf digest full ns) := by
  intro o before parent key hashes ho ha hp hne
  refine ⟨⟨ho, hne, hp.good, fun l hl => ?_, fun hf => by simp [hf]⟩, trivial, trivial⟩
  cases hf : full with
  | false => simp [hf] at hl
  | true =>
    grind [ha.compute, ha.full]

lemma LeafOk.hostLeaf (dropped : Bool) :
    LeafOk digest good full true ns (hostLeaf dropped ns) := by
  intro o before parent key hashes ho ha hp hne
  unfold Unified.hostLeaf
  split
  · trivial
  · refine ⟨⟨ho, hne, hp.good, fun l hl => ?_, nofun⟩, trivial, trivial⟩
    cases hl
    exact hp.hashes rfl

/-- `act` keeps the children of any node sound. -/
def ActOk (digest : Option H → List ℕ → H) (good : Page w → Prop) (full : Bool) (ns : Namespace)
    (act : Option (List H) → Forest w H → Option (Forest w H)) : Prop :=
  ∀ {o before parent f f'}, f.Sound digest good full o before → (∀ n ∈ o, n = ns) →
    Above digest full o before parent → act parent f = some f' →
    f'.Sound digest good full o before

/-- What can be done at a node found by its path keeps the hashes right if it does so locally. -/
lemma Sound.atAnchor {act : Option (List H) → Forest w H → Option (Forest w H)}
    (hact : ActOk digest good full ns act) {f : Forest w H} :
    ∀ {o before parent path f'}, f.Sound digest good full o before → (∀ n ∈ o, n = ns) →
    Above digest full o before parent → f.atAnchor ns act parent path = some f' →
    f'.Sound digest good full o before := by
  induction f with
  | nil =>
    intro o before parent path f' hf ho ha h
    cases path with
    | nil => exact hact hf ho ha h
    | cons => cases h
  | cons ns' k h children rest ihc ihr =>
    intro o before parent path f' hf ho ha h
    cases path with
    | nil => exact hact hf ho ha (by simpa [Forest.atAnchor] using h)
    | cons p ps =>
      obtain ⟨hn, hc, hr⟩ := hf
      rw [Forest.atAnchor] at h
      split at h
      · rename_i hfound
        obtain ⟨g, hg, rfl⟩ := map_eq_some_iff.1 h
        refine ⟨hn, ihc hc (fun n h => ?_) hn.above hg, hr⟩
        cases h
        exact hfound.1
      · obtain ⟨g, hg, rfl⟩ := map_eq_some_iff.1 h
        exact ⟨hn, hc, ihr hr ho ha hg⟩

lemma ActOk.splitChild (p : Page w) (m : ℕ) :
    ActOk digest good full ns fun _ f => f.splitChild ns p m := by
  intro o before parent f f' hf ho ha h
  induction f generalizing f' with
  | nil => cases h
  | cons ns' k h' children rest _ ih =>
    obtain ⟨hn, hc, hr⟩ := hf
    simp only [Forest.splitChild] at h
    split at h
    · split at h
      · rename_i hm
        cases h
        exact Sound.splitNode hn hm.1 hm.2 hc trivial hr
      · cases h
    · obtain ⟨g, hg, rfl⟩ := map_eq_some_iff.1 h
      exact ⟨hn, hc, ih hr hg⟩

lemma ActOk.removeLeaf [DecidableEq H] (p : Page w) :
    ActOk digest good full ns fun _ f => f.removeLeaf ns p := by
  intro o before parent f f' hf ho ha h
  induction f generalizing f' with
  | nil => cases h
  | cons ns' k h' children rest _ ih =>
    obtain ⟨hn, hc, hr⟩ := hf
    simp only [Forest.removeLeaf] at h
    split at h
    · grind
    · obtain ⟨g, hg, rfl⟩ := map_eq_some_iff.1 h
      exact ⟨hn, hc, ih hr hg⟩

/-- Host inserts carry hashes that were computed elsewhere, in continuation of the anchor. -/
lemma ActOk.insertHost (hkey : ∀ p ∈ key, good p) (dropped : Bool) :
    ActOk digest good full ns fun last f => last.map fun l =>
      f.graft ns (Unified.hostLeaf dropped ns) last key
        (getStorageHashStr digest ns l.getLast? key) := by
  intro o before parent f f' hf ho ha h
  obtain ⟨l, rfl, rfl⟩ := map_eq_some_iff.1 h
  refine Sound.graft (LeafOk.hostLeaf dropped) hf ho ha ⟨hkey, fun _ => ?_⟩
  exact congrArg (getHashStr digest · key) (ha.last l rfl ns ho)

/-- Storage can be turned on in a tree that was built without. -/
lemma Sound.backfill : ∀ {f : Forest w H} {o before parent},
    f.Sound digest good full o before → Above digest true o before parent →
    (f.backfill digest parent).Sound digest good true o before
  | .nil, _, _, _, _, _ => trivial
  | .cons ns k h children rest, o, before, parent, ⟨hn, hc, hr⟩, ha => by
    have hn' : NodeOk digest good true o before ns k
        (some (h.getD (computeNodeHashValues digest ns parent k))) := by
      refine ⟨hn.namespace_eq, hn.ne_nil, hn.good, fun l hl => ?_, nofun⟩
      cases hl
      cases h with
      | some l => exact hn.hash l rfl
      | none => exact ha.compute (ha.full rfl) hn.namespace_eq
    exact ⟨hn', Sound.backfill hc hn'.above, Sound.backfill hr ha⟩

/-- Hashes that are there may be right without all being there. -/
lemma Sound.mono : ∀ {f : Forest w H} {o before}, f.Sound digest good full o before →
    f.Sound digest good false o before
  | .nil, _, _, _ => trivial
  | .cons .., _, _, ⟨hn, hc, hr⟩ => ⟨{ hn with full := nofun }, hc.mono, hr.mono⟩

end Forest

/-! ## Runs -/

def State.Sound (digest : Option H → List ℕ → H) (good : Page w → Prop) (s : State w H) : Prop :=
  s.tree.Sound digest good s.hashing none []

/-- Every operation keeps the hashes right, and turning storage on fills in those that are missing.
-/
lemma State.Sound.next [DecidableEq H] {s s' : State w H} {op : Op w} (hs : s.Sound digest good)
    (hop : ∀ p ∈ op.pages, good p) (h : s.next digest op = some s') : s'.Sound digest good := by
  have hat {act : Option (List H) → Forest w H → Option (Forest w H)} {ns path}
      (hact : Forest.ActOk digest good s.hashing ns act)
      (h : (s.tree.atAnchor ns act (some []) path).map ({ s with tree := · }) = some s') :
      s'.Sound digest good := by
    obtain ⟨g, hg, rfl⟩ := map_eq_some_iff.1 h
    exact Forest.Sound.atAnchor hact hs nofun .root hg
  cases op with
  | insert ns key =>
    cases h
    exact Forest.Sound.graft Forest.LeafOk.newLeaf hs nofun .root ⟨hop, nofun⟩
  | split ns path p m => exact hat (Forest.ActOk.splitChild p m) h
  | evict ns path p => exact hat (Forest.ActOk.removeLeaf p) h
  | insertHost ns path key dropped => exact hat (Forest.ActOk.insertHost hop dropped) h
  | attach =>
    cases h
    unfold State.Sound at hs ⊢
    split
    · rename_i hon
      rwa [hon] at hs
    · exact Forest.Sound.backfill hs .root
  | detach =>
    cases h
    exact Forest.Sound.mono hs

/-- A node with the pages on the way to it. -/
structure Entry (w : ℕ) (H : Type) where
  ns : Namespace
  before : List (Page w)
  key : List (Page w)
  hashValue : Option (List H)

/-- All pages from the root to the end of the `i`-th page. -/
def Entry.path (e : Entry w H) (i : ℕ) : List (Page w) := e.before ++ e.key.take (i + 1)

/-- The storage key of the `i`-th page. -/
def Entry.storageKey (e : Entry w H) (i : ℕ) : Option H := e.hashValue.bind (·[i]?)

def Forest.entries : List (Page w) → Forest w H → List (Entry w H)
  | _, .nil => []
  | before, .cons ns k h children rest =>
    ⟨ns, before, k, h⟩ :: (children.entries (before ++ k) ++ rest.entries before)

/-- What soundness says of one node of the tree. -/
lemma Forest.Sound.entry : ∀ {f : Forest w H} {o before} {e : Entry w H},
    f.Sound digest good full o before → (∀ p ∈ before, good p) → e ∈ f.entries before →
    (∀ p ∈ e.before, good p) ∧ NodeOk digest good full none e.before e.ns e.key e.hashValue
  | .cons ns k h children rest, o, before, e, ⟨hn, hc, hr⟩, hb, he => by
    rw [Forest.entries, mem_cons, mem_append] at he
    rcases he with rfl | he | he
    · exact ⟨hb, { hn with namespace_eq := nofun }⟩
    · exact hc.entry (fun p hp => (mem_append.1 hp).elim (hb p) (hn.good p)) he
    · exact hr.entry hb he

/-- The storage key of a page is the chained hash of all pages up to it. -/
lemma NodeOk.storageKey {e : Entry w H} {l : List H} {i : ℕ}
    (hn : NodeOk digest good full none e.before e.ns e.key e.hashValue) (hl : e.hashValue = some l)
    (hi : i < e.key.length) :
    l[i]? = chained digest (storageNamespaceSeed digest e.ns) (e.path i) := by
  rw [hn.hash l hl, getElem?_getHashStr hi, Entry.path, chained_append]

/-- A digest that keeps what it is given. -/
inductive Trace
  | first (bytes : List ℕ)
  | after (prior : Trace) (bytes : List ℕ)
  deriving DecidableEq

def Trace.hash : Option Trace → List ℕ → Trace
  | none => .first
  | some prior => .after prior

/-- An injective digest, for the instance. -/
lemma Trace.hash_inj {x y : Option Trace} {l l' : List ℕ}
    (h : Trace.hash x l = Trace.hash y l') : x = y ∧ l = l' := by
  cases x <;> cases y <;> simp_all [Trace.hash]

def unnamed : Namespace := ⟨none, none⟩

/-- The extra key `a`. -/
def keyed : Namespace := ⟨some ⟨[97], by decide⟩, none⟩

def shortPage (t : Fin (2 ^ 32)) : Page 1 := ⟨[t], rfl, by simp⟩

/-- The bytes of the namespace `keyed` as a page of nine tokens. -/
def seedPage : Page 9 :=
  ⟨[0x616c6773, 0x632d676e, 0x65686361, 0x6d616e2d, 0x61707365, 0x762d6563, 0x00010131, 0,
    0x00610000], rfl, by decide⟩

end Sglang.Unified
