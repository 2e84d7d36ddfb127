import Mathlib.Tactic
import Sglang.Lib.Maps

/-!
# The router's index of KV blocks

The router keeps, in `kv_events/tree.rs`, which engine holds which KV block on which storage tier.
A block is named by its hash, a node of the tree is one block, and its children are the blocks
that follow it in some chain; the whole is cut into `nShards` shards by the hash of the block a
chain starts with.  A shard is an arena of nodes (`TreeState.nodes`) with a reverse index from the
hash of a block to its nodes (`TreeState.byHash`), since a removal names blocks by hash only.

The definitions follow `TreeState` and `HashTree`.  What is not here: the time stamps of the
nodes and the eviction by age that reads them, which nothing in the router calls; the occupancy
counts, which are only shown to an operator; the locks, since a write holds the writer lock from
beginning to end.  Hash maps and sets are `Map`s and lists, visited in an order `o` that is left
open.
-/

namespace Sglang.Router
open Lib

/-! ## Tiers -/

/-- The storage tiers on which one worker holds one block, as a bit set. -/
structure Tiers where
  bits : BitVec 8
  deriving DecidableEq, Repr

namespace Tiers

/-- No tier (`Tiers::default`). -/
def none : Tiers := ⟨0#8⟩

def device : Tiers := ⟨1⟩

def host : Tiers := ⟨1 <<< 1⟩

def disk : Tiers := ⟨1 <<< 2⟩

def external : Tiers := ⟨1 <<< 3⟩

def union (t u : Tiers) : Tiers := ⟨t.bits ||| u.bits⟩

/-- The bits set in `t` and not in `u`; `Tiers::remove` writes it back. -/
def difference (t u : Tiers) : Tiers := ⟨t.bits &&& ~~~u.bits⟩

def isEmpty (t : Tiers) : Bool := t.bits == 0#8

def all : Tiers := device.union host |>.union disk |>.union external

def wireMedia : List (String × Tiers) :=
  [("GPU", device), ("CPU_PINNED", host), ("DISK", disk), ("EXTERNAL", external)]

def known (medium : String) : Option Tiers :=
  (wireMedia.find? fun p => p.1 == medium).map Prod.snd

/-- The tiers a store tagged `medium` lands on: device if it has no tag, none if the tag is not
known. -/
def forStore : Option String → Tiers
  | .none => device
  | some m => (known m).getD none

/-- The tiers a removal tagged `medium` clears: all of them if the tag is absent or not known. -/
def forRemove (medium : Option String) : Tiers := (medium.bind known).getD all

/-- The entry of a carrier map for a worker that holds `t`: none if there is no tier left. -/
def entry (t : Tiers) : Option Tiers := if t.isEmpty then Option.none else some t

variable {t : Tiers}

lemma isEmpty_iff : t.isEmpty = true ↔ t = none := by
  cases t
  simp [isEmpty, none]

lemma not_isEmpty_iff : t.isEmpty = false ↔ t ≠ none := by
  rw [← Bool.not_eq_true, isEmpty_iff]

@[simp] lemma entry_none : none.entry = Option.none := rfl

lemma entry_of_ne (h : t.isEmpty = false) : t.entry = some t := by
  rw [entry, h]
  rfl

lemma entry_eq_none : t.entry = Option.none ↔ t.isEmpty = true := by
  simp [entry]

lemma isEmpty_union {u : Tiers} (h : u.isEmpty = false) : (t.union u).isEmpty = false := by
  rw [not_isEmpty_iff] at h ⊢
  intro he
  refine h ?_
  cases t
  cases u
  rw [union, none, Tiers.mk.injEq, BitVec.or_eq_zero_iff] at he
  exact congrArg Tiers.mk he.2

@[simp] lemma none_union (t : Tiers) : none.union t = t := by
  cases t
  simp [union, none]

@[simp] lemma union_none (t : Tiers) : t.union none = t := by
  cases t
  simp [union, none]

lemma union_union (t u : Tiers) : (t.union u).union u = t.union u := by
  simp [union, BitVec.or_assoc]

@[simp] lemma none_difference (t : Tiers) : none.difference t = none := by
  simp [difference, none]

@[simp] lemma difference_none (t : Tiers) : t.difference none = t := by
  rw [difference, none, BitVec.not_zero, BitVec.and_allOnes]

lemma difference_difference (t u : Tiers) : (t.difference u).difference u = t.difference u := by
  simp [difference, BitVec.and_assoc]

end Tiers

/-! ## Nodes and shards -/

/-- A worker endpoint, refined by its rank. -/
structure KvWorkerId where
  url : String
  dpRank : UInt32
  deriving DecidableEq, Repr

abbrev NodeId := Nat

/-- A node of the tree: one block, at the end of one chain. -/
structure Node where
  blockHash : Int64
  parentBlockHash : Option Int64
  /-- Absent only in the root. -/
  parent : Option NodeId
  /-- The carriers of the block, with the tiers on which each holds it. -/
  workers : Map KvWorkerId Tiers
  /-- The nodes that follow, by their hash. -/
  children : Map Int64 NodeId

def Node.newChild (blockHash : Int64) (parentBlockHash : Option Int64) (parent : NodeId) : Node :=
  ⟨blockHash, parentBlockHash, some parent, ∅, ∅⟩

/-- Neither a carrier nor a child. -/
def Node.prunable (n : Node) : Bool := n.workers.isEmpty && n.children.isEmpty

/-- Where one insertion hangs its chain. -/
structure ParentLink where
  /-- The hash to look for; `none` roots the chain whatever the shard holds. -/
  attach : Option Int64
  /-- What is recorded in the first node. -/
  breadcrumb : Option Int64

/-- One shard. -/
structure TreeState where
  nodes : Map NodeId Node
  byHash : Map Int64 (List NodeId)
  nextId : NodeId

def rootId : NodeId := 0

def rootHashSentinel : Int64 := Int64.minValue

/-- Add `tiers` to what `worker` holds. -/
def addTiers (carriers : Map KvWorkerId Tiers) (worker : KvWorkerId) (tiers : Tiers) :
    Map KvWorkerId Tiers :=
  match carriers.lookup worker with
  | some held => carriers.insert worker (held.union tiers)
  | none => carriers.insert worker tiers

/-- Clear `tiers` from what `worker` holds; the entry goes with the last tier. -/
def dropTiers (carriers : Map KvWorkerId Tiers) (worker : KvWorkerId) (tiers : Tiers) :
    Map KvWorkerId Tiers :=
  match carriers.lookup worker with
  | some held =>
    if (held.difference tiers).isEmpty then carriers.erase worker
    else carriers.insert worker (held.difference tiers)
  | none => carriers

/-- The result of a match; `Default` is no match. -/
structure MatchResult where
  matchedBlocks : Nat
  /-- Every worker that holds the deepest matched node, with its tiers. -/
  tiers : Map KvWorkerId Tiers

namespace TreeState

def new : TreeState where
  nodes := (∅ : Map NodeId Node).insert rootId ⟨rootHashSentinel, none, none, ∅, ∅⟩
  byHash := ∅
  nextId := 1

variable (o : IterOrder) (s : TreeState) (worker : KvWorkerId) (parentHash : Option Int64)
  (blockHashes : List Int64)

def node (id : NodeId) : Option Node := s.nodes.lookup id

/-- The nodes that carry `h`. -/
def carriers (h : Int64) : List NodeId := (s.byHash.lookup h).getD []

/-- The child of `id` for the block `h`. -/
def child (id : NodeId) (h : Int64) : Option NodeId :=
  (s.node id).bind fun n => n.children.lookup h

/-- Write back the carriers of a node. -/
def setWorkers (id : NodeId) (n : Node) (workers : Map KvWorkerId Tiers) : TreeState :=
  { s with nodes := s.nodes.insert id { n with workers } }

def createChild (parentId : NodeId) (blockHash : Int64)
    (parentBlockHash : Option Int64) : Option NodeId × TreeState :=
  let id := s.nextId
  let nodes := s.nodes.insert id (.newChild blockHash parentBlockHash parentId)
  match nodes.lookup parentId with
  | none => (none, { s with nodes := nodes.erase id, nextId := id + 1 })
  | some parent =>
    (some id,
      { nodes := nodes.insert parentId { parent with children := parent.children.insert blockHash id }
        byHash := s.byHash.insert blockHash ((s.carriers blockHash).insert id)
        nextId := id + 1 })

/-- The node to attach a chain to. -/
def resolveParent :
    Option Int64 → NodeId
  | none => rootId
  | some parentHash =>
    match s.byHash.lookup parentHash with
    | none => rootId
    | some candidates =>
      match o.order candidates with
      | [candidate] => candidate
      | several =>
        (several.find? fun c => (s.node c).any fun n => (n.workers.lookup worker).isSome).getD rootId

/-- The child of `current` for `h`, created if there is none. -/
def childFor (current : NodeId) (h : Int64) (prevHash : Option Int64) : Option NodeId × TreeState :=
  match s.child current h with
  | some id => (some id, s)
  | none => s.createChild current h prevHash

/-- The loop of `insert` over the blocks of the chain. -/
def insertLoop (worker : KvWorkerId) (tiers : Tiers) :
    TreeState → NodeId → Option Int64 → List Int64 → TreeState
  | s, _, _, [] => s
  | s, current, prevHash, h :: hs =>
    match s.childFor current h prevHash with
    | (none, s) => s
    | (some childId, s) =>
      match s.node childId with
      | none => s
      | some child =>
        insertLoop worker tiers (s.setWorkers childId child (addTiers child.workers worker tiers))
          childId (some h) hs

/-- Mark every node along `blockHashes` as held by `worker` on `tiers`. -/
def insert (parent : ParentLink)
    (blockHashes : List Int64) (tiers : Tiers) : TreeState :=
  if blockHashes.isEmpty || tiers.isEmpty then s
  else insertLoop worker tiers s (s.resolveParent o worker parent.attach) parent.breadcrumb
    blockHashes

/-- Take a node out of the reverse index; an entry goes with its last node. -/
def unindex (byHash : Map Int64 (List NodeId)) (cursor : NodeId) (blockHash : Int64) :
    Map Int64 (List NodeId) :=
  match byHash.lookup blockHash with
  | some set =>
    if (set.erase cursor).isEmpty then byHash.erase blockHash
    else byHash.insert blockHash (set.erase cursor)
  | none => byHash

/-- Take one node out of its parent, of the reverse index and of the arena. -/
def detach (cursor parentId : NodeId) (blockHash : Int64) : TreeState :=
  let nodes := match s.node parentId with
    | some parent =>
      s.nodes.insert parentId { parent with children := parent.children.erase blockHash }
    | none => s.nodes
  { s with nodes := nodes.erase cursor, byHash := unindex s.byHash cursor blockHash }

/-- The loop of `pruneCascade`; each round but the last drops a node. -/
def pruneCascadeLoop : Nat → TreeState → NodeId → TreeState
  | 0, s, _ => s
  | fuel + 1, s, cursor =>
    if cursor = rootId then s
    else match s.node cursor with
      | none => s
      | some n =>
        match n.parent with
        | none => s
        | some parentId =>
          if n.prunable then
            let s := s.detach cursor parentId n.blockHash
            if parentId ≠ rootId ∧ (s.node parentId).any Node.prunable then
              pruneCascadeLoop fuel s parentId
            else s
          else s

/-- Detach `start` and every ancestor that is left with neither a carrier nor a child. -/
def pruneCascade (start : NodeId) : TreeState := pruneCascadeLoop s.nodes.keys.length s start

def carriesAny : Bool :=
  blockHashes.any fun h => (s.byHash.lookup h).isSome

/-- One round of `remove`. -/
def removeTarget (tiers : Tiers) (s : TreeState) (id : NodeId) : TreeState :=
  match s.node id with
  | none => s
  | some n =>
    let workers := dropTiers n.workers worker tiers
    let s := s.setWorkers id n workers
    if workers.isEmpty && n.children.isEmpty then s.pruneCascade id else s

/-- Clear `tiers` from what `worker` holds at every node that carries one of `blockHashes`. -/
def remove
    (tiers : Tiers) : TreeState :=
  (blockHashes.flatMap fun h => o.order (s.carriers h)).foldl (removeTarget worker tiers) s

/-- One round of the first loop of `clearWorker`, with the nodes to prune later. -/
def clearTarget (acc : TreeState × List NodeId) (id : NodeId) : TreeState × List NodeId :=
  match acc.1.node id with
  | none => acc
  | some n =>
    match n.workers.lookup worker with
    | none => acc
    | some _ =>
      let workers : Map KvWorkerId Tiers := n.workers.erase worker
      (acc.1.setWorkers id n workers,
        if workers.isEmpty && n.children.isEmpty then acc.2 ++ [id] else acc.2)

/-- One round of the second loop of `clearWorker`. -/
def pruneCandidate (id : NodeId) : TreeState := if (s.node id).isSome then s.pruneCascade id else s

/-- Drop `worker` from every node. -/
def clearWorker : TreeState :=
  let ids := (o.order s.nodes.keys).filter fun id => id ≠ rootId
  let (s, pruneCandidates) := ids.foldl (clearTarget worker) (s, [])
  pruneCandidates.foldl pruneCandidate s

/-- The node a match starts from. -/
def matchStart : Option Int64 → NodeId
  | none => rootId
  | some p =>
    match s.byHash.lookup p with
    | some [id] => id
    | _ => rootId

/-- The loop of `matchPrefix`: the node reached and the number of blocks matched. -/
def matchLoop (s : TreeState) : NodeId → Nat → List Int64 → NodeId × Nat
  | current, matched, [] => (current, matched)
  | current, matched, h :: hs =>
    match s.child current h with
    | some childId => matchLoop s childId (matched + 1) hs
    | none => (current, matched)

/-- The longest path that matches a prefix of `blockHashes`, and the carriers of its last node. -/
def matchPrefix : MatchResult :=
  if blockHashes.isEmpty then ⟨0, ∅⟩
  else
    let (current, matched) := s.matchLoop (s.matchStart parentHash) 0 blockHashes
    ⟨matched, if 0 < matched then ((s.node current).map Node.workers).getD ∅ else ∅⟩

/-- What `prefixDepths` carries from block to block. -/
structure DepthState where
  current : NodeId
  reached : Nat
  /-- The workers that hold every block so far. -/
  alive : List KvWorkerId
  depths : Map KvWorkerId Nat

/-- One level further: the workers that do not hold it are frozen at the level before. -/
def depthStep (d : DepthState) (childId : NodeId) (child : Node) : DepthState :=
  let reached := d.reached + 1
  if reached = 1 then
    { d with current := childId, reached, alive := o.order child.workers.keys }
  else
    { current := childId
      reached
      alive := d.alive.filter fun w => (child.workers.lookup w).isSome
      depths := (d.alive.filter fun w => !(child.workers.lookup w).isSome).foldl
        (fun depths w => depths.insert w (reached - 1)) d.depths }

/-- The loop of `prefixDepths`. -/
def depthLoop (o : IterOrder) (s : TreeState) : DepthState → List Int64 → DepthState
  | d, [] => d
  | d, h :: hs =>
    match s.child d.current h with
    | none => d
    | some childId =>
      match s.node childId with
      | none => d
      | some child =>
        let d := depthStep o d childId child
        if d.alive.isEmpty then d else depthLoop o s d hs

/-- How many leading blocks each worker holds without a gap. -/
def prefixDepths : Map KvWorkerId Nat :=
  if blockHashes.isEmpty then ∅
  else
    let d := s.depthLoop o ⟨s.matchStart parentHash, 0, [], ∅⟩ blockHashes
    d.alive.foldl (fun depths w => depths.insert w d.reached) d.depths

end TreeState

/-! ## The sharded tree -/

def nShards : Nat := 32

def shardMix : UInt64 := 0x9E3779B97F4A7C15

/-- The shard of a chain that starts with `rootHash`: the top bits of a multiplicative hash. -/
def shardOf (rootHash : Int64) : Fin nShards :=
  ⟨((rootHash.toUInt64 * shardMix) >>> 59).toNat, by
    rw [UInt64.toNat_shiftRight, Nat.shiftRight_eq_div_pow]
    exact Nat.div_lt_of_lt_mul (UInt64.toNat_lt _)⟩

/-- The sharded tree. -/
structure HashTree where
  shards : Vector TreeState nShards

/-- What the scan of `routeInsert` has seen so far. -/
structure Scan where
  totalCarriers : Nat
  singleCarrierShard : Option (Fin nShards)
  workerOwnedShard : Option (Fin nShards)

namespace HashTree

def new : HashTree := ⟨.replicate nShards .new⟩

variable (o : IterOrder) (t : HashTree) (worker : KvWorkerId) (parentHash : Option Int64)
  (blockHashes : List Int64)

/-- One round of the scan of `routeInsert`. -/
def scanShard (p : Int64) (acc : Scan) (idx : Fin nShards) : Scan :=
  let st := t.shards[idx]
  match st.carriers p with
  | [] => acc
  | ids =>
    { totalCarriers := acc.totalCarriers + ids.length
      singleCarrierShard := some idx
      workerOwnedShard :=
        if acc.workerOwnedShard.isNone ∧
            ids.any fun id => (st.node id).any fun n => (n.workers.lookup worker).isSome
        then some idx else acc.workerOwnedShard }

/-- The shard to write to, and the link to write with. -/
def routeInsert
    (blockHash : Int64) : Fin nShards × ParentLink :=
  let rootShard := shardOf blockHash
  match parentHash with
  | none => (rootShard, ⟨none, none⟩)
  | some p =>
    let scan := (List.finRange nShards).foldl (t.scanShard worker p) ⟨0, none, none⟩
    match scan.totalCarriers with
    | 0 => (rootShard, ⟨some p, some p⟩)
    | 1 => (scan.singleCarrierShard.getD rootShard, ⟨some p, some p⟩)
    | _ =>
      match scan.workerOwnedShard with
      | some idx => (idx, ⟨some p, some p⟩)
      | none => (rootShard, ⟨none, some p⟩)

/-- Apply a store on `tiers`. -/
def insertTiered (tiers : Tiers) : HashTree :=
  if tiers.isEmpty then t
  else match blockHashes with
    | [] => t
    | h :: hs =>
      let (idx, parent) := t.routeInsert worker parentHash h
      ⟨t.shards.set idx (t.shards[idx].insert o worker parent (h :: hs) tiers)⟩

/-- Apply a removal on `tiers`. -/
def removeTiered
    (tiers : Tiers) : HashTree :=
  if blockHashes.isEmpty || tiers.isEmpty then t
  else ⟨t.shards.map fun shard =>
    if shard.carriesAny blockHashes then shard.remove o worker blockHashes tiers else shard⟩

/-- Forget everything `worker` holds. -/
def clearWorker : HashTree :=
  ⟨t.shards.map fun shard => shard.clearWorker o worker⟩

/-- The shard and the start of a match: only a unique carrier of the parent is honoured. -/
def routeMatch (blockHash : Int64) : Fin nShards × Option Int64 :=
  let rootShard := shardOf blockHash
  match parentHash with
  | none => (rootShard, none)
  | some p =>
    match (List.finRange nShards).flatMap fun idx => (t.shards[idx].carriers p).map fun _ => idx with
    | [idx] => (idx, some p)
    | _ => (rootShard, none)

/-- Descend the shard that can answer, checking the resolution once more. -/
def descendMatchShard {α : Type} (t : HashTree) (parentHash : Option Int64) (blockHash : Int64)
    (descend : TreeState → Option Int64 → α) : α :=
  match t.routeMatch parentHash blockHash with
  | (idx, some p) =>
    if (t.shards[idx].carriers p).length = 1 then descend t.shards[idx] (some p)
    else descend t.shards[shardOf blockHash] none
  | (_, none) => descend t.shards[shardOf blockHash] none

/-- The longest match of `blockHashes`. -/
def matchPrefix : MatchResult :=
  match blockHashes with
  | [] => ⟨0, ∅⟩
  | h :: hs => t.descendMatchShard parentHash h fun shard parent =>
      shard.matchPrefix parent (h :: hs)

/-- How many leading blocks of `blockHashes` each worker holds without a gap. -/
def prefixDepths : Map KvWorkerId Nat :=
  match blockHashes with
  | [] => ∅
  | h :: hs => t.descendMatchShard parentHash h fun shard parent =>
      shard.prefixDepths o parent (h :: hs)

end HashTree

/-- The shards of a tree. -/
def HashTree.shard (t : HashTree) (i : Fin nShards) : TreeState := t.shards[i]

lemma HashTree.shard_set (t : HashTree) (i : Fin nShards) (s : TreeState) :
    (HashTree.mk (t.shards.set i s)).shard = Function.update t.shard i s := by
  grind [HashTree.shard]

/-! ## Events -/

/-- A cache event of a worker, as it comes off the wire. -/
inductive KvCacheEvent
  | blockStored (blockHashes : List Int64) (parentBlockHash : Option Int64)
      (medium : Option String)
  | blockRemoved (blockHashes : List Int64) (medium : Option String)
  | allBlocksCleared
  deriving DecidableEq, Repr

/-- What the pump does with one event of a batch. -/
def HashTree.apply (o : IterOrder) (t : HashTree) (worker : KvWorkerId) : KvCacheEvent → HashTree
  | .blockStored blockHashes parentBlockHash medium =>
    t.insertTiered o worker parentBlockHash blockHashes (.forStore medium)
  | .blockRemoved blockHashes medium => t.removeTiered o worker blockHashes (.forRemove medium)
  | .allBlocksCleared => t.clearWorker o worker

end Sglang.Router
