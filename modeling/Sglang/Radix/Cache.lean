import Mathlib.Data.List.AList
import Sglang.Lib.Runs
import Sglang.Radix.Key

/-!
# The radix cache (`RadixCache`)

The tree lives in a heap: nodes are numbered as they are made and refer to each other by number, so
that splitting a node moves nothing else.  What the clock and the event log see is kept only as far
as eviction reads it.  `heapq` is a parameter, of which only what its documentation says is used.
-/

namespace Sglang.Radix
open Lib List

/-- What the operations on the tree raise. -/
inductive RadixFault
  | key (fault : KeyFault)
  /-- An attribute of `None` is read: the parent of a root. -/
  | noParent
  /-- `parent does not have child key`. -/
  | notChild
  /-- `This request holds the node from another tree`. -/
  | otherTree
  /-- A loop that does not end. -/
  | diverged
  deriving DecidableEq, Repr

/-- `TreeNode`; the value of a node of this cache is never `None`, so none is `evicted`. -/
structure TreeNode where
  children : AList fun _ : ChildKey => Nat
  parent : Option Nat
  key : RadixKey
  value : List Nat
  lockRef : Int
  lastAccessTime : Nat
  creationTime : Nat
  hitCount : Nat
  priority : Int

/-- The eviction strategies for this tree. -/
inductive EvictionStrategy
  | lru | lfu | fifo | mru | filo | priority
  | slru (protectedThreshold : Nat)
  deriving DecidableEq, Repr

/-- `get_priority`; a single number is a pair with 0. -/
def EvictionStrategy.getPriority (node : TreeNode) : EvictionStrategy → Int × Int
  | .lru => (node.lastAccessTime, 0)
  | .lfu => (node.hitCount, node.lastAccessTime)
  | .fifo => (node.creationTime, 0)
  | .mru => (-node.lastAccessTime, 0)
  | .filo => (-node.creationTime, 0)
  | .priority => (node.priority, node.lastAccessTime)
  | .slru protectedThreshold =>
    (if protectedThreshold ≤ node.hitCount then 1 else 0, node.lastAccessTime)

/-- An entry of the eviction heap: its priority, and the node, of which `__lt__` reads the time. -/
structure HeapEntry where
  priority : Int × Int
  time : Nat
  node : Nat
  deriving DecidableEq, Repr

/-- The order of the tuples. -/
def HeapEntry.rank (e : HeapEntry) : ℤ ×ₗ ℤ ×ₗ ℕ := toLex (e.priority.1, toLex (e.priority.2, e.time))

/-- `heapq`: some smallest entry is popped. -/
structure Heapq where
  heappop : List HeapEntry → Option (HeapEntry × List HeapEntry)
  heappop_nil : ∀ l, heappop l = none ↔ l = []
  heappop_perm : ∀ {l e r}, heappop l = some (e, r) → (e :: r).Perm l
  heappop_least : ∀ {l e r}, heappop l = some (e, r) → ∀ e' ∈ l, e.rank ≤ e'.rank

/-- A least entry, and the others. -/
def popLeast (e : HeapEntry) : List HeapEntry → HeapEntry × List HeapEntry
  | [] => (e, [])
  | x :: l =>
    if e.rank ≤ x.rank then ((popLeast e l).1, x :: (popLeast e l).2)
    else ((popLeast x l).1, e :: (popLeast x l).2)

lemma popLeast_perm : ∀ (l : List HeapEntry) (e : HeapEntry),
    ((popLeast e l).1 :: (popLeast e l).2).Perm (e :: l)
  | [], e => List.Perm.refl _
  | x :: l, e => by
    rw [popLeast]
    split
    · exact (List.Perm.swap x _ _).trans (((popLeast_perm l e).cons x).trans (List.Perm.swap e x l))
    · exact (List.Perm.swap e _ _).trans ((popLeast_perm l x).cons e)

lemma popLeast_least : ∀ (l : List HeapEntry) (e : HeapEntry),
    ∀ e' ∈ e :: l, (popLeast e l).1.rank ≤ e'.rank
  | [], e, e', he' => by
    rw [mem_singleton.1 he']
    exact le_refl e.rank
  | x :: l, e, e', he' => by
    rw [popLeast]
    split
    · rename_i hle
      have hrec := popLeast_least l e
      rcases mem_cons.1 he' with rfl | he'
      · exact hrec _ mem_cons_self
      rcases mem_cons.1 he' with rfl | he'
      · exact (hrec e mem_cons_self).trans hle
      · exact hrec e' (mem_cons_of_mem _ he')
    · rename_i hgt
      have hrec := popLeast_least l x
      rcases mem_cons.1 he' with rfl | he'
      · exact (hrec x mem_cons_self).trans (le_of_lt (not_le.1 hgt))
      · exact hrec e' he'

/-- A heap that looks for a least entry each time. -/
def Heapq.least : Heapq where
  heappop
    | [] => none
    | e :: l => some (popLeast e l)
  heappop_nil
    | [] => ⟨fun _ => rfl, fun _ => rfl⟩
    | _ :: _ => ⟨nofun, nofun⟩
  heappop_perm {l e r} h := by
    cases l with
    | nil => cases h
    | cons x l =>
      have hperm := popLeast_perm l x
      rwa [Option.some_inj.1 h] at hperm
  heappop_least {l e r} h := by
    cases l with
    | nil => cases h
    | cons x l =>
      have hleast := popLeast_least l x
      rwa [Option.some_inj.1 h] at hleast

/-- `RadixCache`. -/
structure RadixCache where
  disable : Bool
  pageSize : Nat
  isEagle : Bool
  evictionStrategy : EvictionStrategy
  /-- The nodes, by number. -/
  heap : Nat → TreeNode
  /-- `TreeNode.counter`. -/
  counter : Nat
  rootNode : Nat
  evictableSize : Int
  protectedSize : Int
  evictableLeaves : List Nat
  /-- What `time.monotonic` returns, reading by reading, and the readings so far. -/
  clock : Nat → Nat
  reads : Nat

/-- `MatchResult`; the three nodes of it are one here. -/
structure MatchResult where
  deviceIndices : List Nat
  lastDeviceNode : Nat

/-- `InsertParams`. -/
structure InsertParams where
  key : RadixKey
  value : Option (List Nat)
  chunked : Bool
  priority : Option Int

/-- `InsertResult`. -/
structure InsertResult where
  prefixLen : Nat
  lastDeviceNode : Option Nat

/-- `EvictResult`, with the calls of `free_segment` that were made. -/
structure EvictResult where
  numTokensEvicted : Nat
  freed : List (List Nat × Nat)

/-- A key of nothing. -/
def RadixKey.empty : RadixKey := .init [] none false none none

namespace RadixCache
variable (c : RadixCache)

variable (n node : Nat) (childKey : ChildKey) (key : RadixKey) (value : List Nat)
  (priority : Int) (chunked : Bool)

/-- Write a node. -/
def modify (f : TreeNode → TreeNode) : RadixCache :=
  { c with heap := Function.update c.heap n (f (c.heap n)) }

/-- `time.monotonic()`. -/
def monotonic : Nat × RadixCache := (c.clock c.reads, { c with reads := c.reads + 1 })

/-- `TreeNode(priority=..)`, a node of no key that hangs nowhere. -/
def newNode : Nat × RadixCache :=
  let (lastAccessTime, c) := c.monotonic
  let (creationTime, c) := c.monotonic
  (c.counter, { c with
    heap := Function.update c.heap c.counter
      { children := ∅, parent := none, key := .empty, value := [], lockRef := 0, lastAccessTime,
        creationTime, hitCount := 0, priority }
    counter := c.counter + 1 })

/-- `reset`; the root has the least of all priorities. -/
def reset : RadixCache :=
  let (root, c) := c.newNode (-(2 ^ 63 - 1))
  { c.modify root fun node => { node with lockRef := 1 } with
    rootNode := root, evictableSize := 0, protectedSize := 0, evictableLeaves := [] }

/-- `_update_leaf_status`. -/
def updateLeafStatus : RadixCache :=
  if 0 < (c.heap n).lockRef ∨ (c.heap n).children.entries ≠ [] then
    { c with evictableLeaves := c.evictableLeaves.erase n }
  else if n ∈ c.evictableLeaves then c
  else { c with evictableLeaves := n :: c.evictableLeaves }

/-- The exceptions of keys are exceptions of the tree. -/
def ofKey {α : Type} : Except KeyFault α → Except RadixFault α
  | .ok a => .ok a
  | .error fault => .error (.key fault)

/-- What `_split_node` writes: a new node for the first `split_len` units, above `child`. -/
def splitWrite (child splitLen parent : Nat) (childKey newKey : ChildKey) : Nat × RadixCache :=
  let node := c.heap child
  let (newNode, c) := c.newNode node.priority
  let c := c.modify newNode fun new => { new with
    hitCount := node.hitCount
    children := AList.insert childKey child ∅
    parent := some parent
    lockRef := node.lockRef
    key := node.key.take splitLen
    value := node.value.take splitLen }
  let c := c.modify child fun node => { node with
    parent := some newNode
    key := node.key.drop splitLen
    value := node.value.drop splitLen }
  (newNode, c.modify parent fun p => { p with children := p.children.insert newKey newNode })

/-- `_split_node`. -/
def splitNode (child splitLen : Nat) : Except RadixFault (Nat × RadixCache) :=
  ofKey (((c.heap child).key.drop splitLen).childKey c.pageSize) >>= fun childKey =>
  match (c.heap child).parent with
  | none => .error .noParent
  | some parent =>
    ofKey ((c.heap child).key.childKey c.pageSize) >>= fun newKey =>
    .ok (c.splitWrite child splitLen parent childKey newKey)

/-! ## Lookup -/

/-- The loop of `_match_prefix_helper`. -/
def matchLoop (accessTime : Nat) : Nat → RadixCache → Nat → RadixKey → List Nat →
    Except RadixFault (List Nat × Nat × RadixCache)
  | 0, _, _, _, _ => .error .diverged
  | fuel + 1, c, node, key, value =>
    if key.len = 0 then .ok (value, node, c)
    else ofKey (key.childKey c.pageSize) >>= fun childKey =>
      match (c.heap node).children.lookup childKey with
      | none => .ok (value, node, c)
      | some child =>
        let c := c.modify child fun node => { node with lastAccessTime := accessTime }
        ofKey ((c.heap child).key.matchLen key c.pageSize) >>= fun prefixLen =>
        if prefixLen < (c.heap child).key.len then
          c.splitNode child prefixLen >>= fun (newNode, c) =>
          .ok (value ++ (c.heap newNode).value, newNode, c)
        else matchLoop accessTime fuel c child (key.drop prefixLen)
          (value ++ (c.heap child).value)

/-- `_match_prefix_helper`. -/
def matchPrefixHelper : Except RadixFault (List Nat × Nat × RadixCache) :=
  let (accessTime, c) := c.monotonic
  matchLoop accessTime (key.len + 1)
    (c.modify node fun node => { node with lastAccessTime := accessTime }) node key []

/-- `match_prefix`. -/
def matchPrefix : Except RadixFault (MatchResult × RadixCache) :=
  let key := (key.maybeToBigramView c.isEagle (none : Option (List Nat))).1
  if c.disable || key.len = 0 then .ok (⟨[], c.rootNode⟩, c)
  else
    let key := key.pageAligned c.pageSize
    if key.len = 0 then .ok (⟨[], c.rootNode⟩, c)
    else c.matchPrefixHelper c.rootNode key >>= fun (value, lastNode, c) =>
      .ok (⟨value, lastNode⟩, c)

/-! ## Insertion -/

/-- `_inc_hit_count`. -/
def incHitCount : RadixCache :=
  if chunked then c else c.modify n fun node => { node with hitCount := node.hitCount + 1 }

/-- `node.priority = max(node.priority, priority)`. -/
def raisePriority : RadixCache :=
  c.modify n fun node => { node with priority := max node.priority priority }

/-- Where the walk of an insertion ends. -/
structure InsertWalk where
  node : Nat
  key : RadixKey
  value : List Nat
  totalPrefixLength : Nat

/-- The loop of `_insert_helper`. -/
def insertLoop (accessTime : Nat) (priority : Int) (chunked : Bool) : Nat → RadixCache →
    InsertWalk → Except RadixFault (InsertWalk × RadixCache)
  | 0, _, _ => .error .diverged
  | fuel + 1, c, w =>
    if w.key.len = 0 then .ok (w, c)
    else ofKey (w.key.childKey c.pageSize) >>= fun childKey =>
      match (c.heap w.node).children.lookup childKey with
      | none => .ok (w, c)
      | some node =>
        let c := c.modify node fun node => { node with lastAccessTime := accessTime }
        ofKey ((c.heap node).key.matchLen w.key c.pageSize) >>= fun prefixLen =>
        let w := { w with
          totalPrefixLength := w.totalPrefixLength + prefixLen
          key := w.key.drop prefixLen
          value := w.value.drop prefixLen }
        if prefixLen < (c.heap node).key.len then
          c.splitNode node prefixLen >>= fun (newNode, c) =>
          insertLoop accessTime priority chunked fuel
            ((c.raisePriority newNode priority).incHitCount newNode chunked)
            { w with node := newNode }
        else insertLoop accessTime priority chunked fuel
          ((c.raisePriority node priority).incHitCount node chunked) { w with node := node }

/-- The writes of `_insert_helper` for a new leaf. -/
def hangLeaf : Nat × RadixCache :=
  let (newNode, c) := c.newNode priority
  let c := c.modify newNode fun new => { new with parent := some node, key := key, value := value }
  let c := c.incHitCount newNode chunked
  let c := c.modify node fun p => { p with children := p.children.insert childKey newNode }
  (newNode, { c with evictableSize := c.evictableSize + key.len })

/-- The new leaf of `_insert_helper`. -/
def addLeaf : Nat × RadixCache :=
  let (newNode, c) := c.hangLeaf node childKey key value priority chunked
  (newNode, (c.updateLeafStatus node).updateLeafStatus newNode)

/-- `_insert_helper`. -/
def insertHelper (priority : Option Int)
    (chunked : Bool) : Except RadixFault (Nat × Nat × RadixCache) :=
  let priority := priority.getD 0
  let (accessTime, c) := c.monotonic
  let c := c.modify node fun node => { node with lastAccessTime := accessTime }
  let c := c.raisePriority node priority
  if key.len = 0 then .ok (0, node, c)
  else insertLoop accessTime priority chunked (key.len + 2) c ⟨node, key, value, 0⟩ >>=
    fun (w, c) =>
    if w.key.len = 0 then .ok (w.totalPrefixLength, w.node, c)
    else ofKey (w.key.childKey c.pageSize) >>= fun childKey =>
      let (newNode, c) := c.addLeaf w.node childKey w.key w.value priority chunked
      .ok (w.totalPrefixLength, newNode, c)

/-- `insert`; without a value, the token ids are the values. -/
def insert (params : InsertParams) : Except RadixFault (InsertResult × RadixCache) :=
  if c.disable then .ok (⟨0, none⟩, c)
  else
    let (key, value) := params.key.maybeToBigramView c.isEagle params.value
    let key := key.pageAligned c.pageSize
    let value := (value.map (take key.len)).getD ((key.tokenIds.take key.len).map Int.toNat)
    c.insertHelper c.rootNode key value params.priority params.chunked >>=
      fun (prefixLen, lastNode, c) => .ok (⟨prefixLen, some lastNode⟩, c)

/-! ## Locks -/

/-- One step up of `inc_lock_ref`. -/
def incLock : RadixCache :=
  let c := if (c.heap n).lockRef = 0 then { c with
      evictableSize := c.evictableSize - (c.heap n).key.len
      protectedSize := c.protectedSize + (c.heap n).key.len } else c
  (c.modify n fun node => { node with lockRef := node.lockRef + 1 }).updateLeafStatus n

/-- The loop of `inc_lock_ref`. -/
def incLockLoop : Nat → RadixCache → Nat → Int → Except RadixFault (Int × RadixCache)
  | 0, _, _, _ => .error .diverged
  | fuel + 1, c, node, delta =>
    if node = c.rootNode then .ok (delta, c)
    else
      let delta := if (c.heap node).lockRef = 0 then delta - (c.heap node).key.len else delta
      let c := c.incLock node
      match (c.heap node).parent with
      | none => .error .noParent
      | some parent => incLockLoop fuel c parent delta

/-- `inc_lock_ref`: the change of what can be evicted. -/
def incLockRef : Except RadixFault (Int × RadixCache) :=
  if c.disable then .ok (0, c) else incLockLoop (c.counter + 1) c node 0

/-- One step up of `dec_lock_ref`. -/
def decLock : RadixCache :=
  let c := if (c.heap n).lockRef = 1 then { c with
      evictableSize := c.evictableSize + (c.heap n).key.len
      protectedSize := c.protectedSize - (c.heap n).key.len } else c
  (c.modify n fun node => { node with lockRef := node.lockRef - 1 }).updateLeafStatus n

/-- The loop of `dec_lock_ref`. -/
def decLockLoop : Nat → RadixCache → Nat → Int → Except RadixFault (Int × RadixCache)
  | 0, _, _, _ => .error .diverged
  | fuel + 1, c, node, delta =>
    if node = c.rootNode then .ok (delta, c)
    else
      let delta := if (c.heap node).lockRef = 1 then delta + (c.heap node).key.len else delta
      let c := c.decLock node
      match (c.heap node).parent with
      | none => .error .otherTree
      | some parent => decLockLoop fuel c parent delta

/-- `dec_lock_ref`. -/
def decLockRef : Except RadixFault (Int × RadixCache) :=
  if c.disable then .ok (0, c) else decLockLoop (c.counter + 1) c node 0

/-! ## Eviction -/

/-- `_delete_leaf`. -/
def deleteLeaf : Except RadixFault RadixCache :=
  ofKey ((c.heap n).key.childKey c.pageSize) >>= fun key =>
  match (c.heap n).parent with
  | none => .error .noParent
  | some parent =>
    let v := (c.heap parent).children.lookup key
    let c := c.modify parent fun p => { p with children := p.children.erase key }
    if v ≠ some n then .error .notChild
    else
      let c := { c with
        evictableSize := c.evictableSize - (c.heap n).key.len
        evictableLeaves := c.evictableLeaves.erase n }
      .ok (c.updateLeafStatus parent)

/-- What is pushed for a node. -/
def heapEntry : HeapEntry :=
  ⟨c.evictionStrategy.getPriority (c.heap n), (c.heap n).lastAccessTime, n⟩

/-- The loop of `evict`. -/
def evictLoop (q : Heapq) (numTokens : Nat) : Nat → RadixCache → List HeapEntry → EvictResult →
    Except RadixFault (EvictResult × RadixCache)
  | 0, _, _, _ => .error .diverged
  | fuel + 1, c, evictionHeap, res =>
    if res.numTokensEvicted < numTokens then
      match q.heappop evictionHeap with
      | none => .ok (res, c)
      | some (e, evictionHeap) =>
        let x := c.heap e.node
        let res : EvictResult := ⟨res.numTokensEvicted + x.value.length, res.freed ++ [(x.value, 0)]⟩
        c.deleteLeaf e.node >>= fun c =>
        match x.parent with
        | none => .error .noParent
        | some parent =>
          let evictionHeap :=
            if (c.heap parent).children.entries = [] ∧ (c.heap parent).lockRef = 0 then
              c.heapEntry parent :: evictionHeap
            else evictionHeap
          evictLoop q numTokens fuel c evictionHeap res
    else .ok (res, c)

/-- `evict`. -/
def evict (q : Heapq) (numTokens : Nat) : Except RadixFault (EvictResult × RadixCache) :=
  if c.disable then .ok (⟨0, []⟩, c)
  else evictLoop q numTokens (c.counter + 1) c (c.evictableLeaves.map c.heapEntry) ⟨0, []⟩

end RadixCache
end Sglang.Radix
