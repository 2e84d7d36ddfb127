import Sglang.Lib.Runs
import Sglang.Lib.Words
import Sglang.Router.Index

/-!
# The index is exact

A `Fleet` is the router's tree beside what the workers' own events say they hold.  Events are
applied one after another, by any workers on any tiers; `Fleet.Permits` asks of a store that its
blocks are stored behind the blocks `parentOf` gives them, and that its parent is absent or held by
the worker.

`index_exact`: in every state reached so, the depth that `prefixDepths` gives a worker on a chain is
the length of the longest prefix the worker holds, and `matchPrefix` ends at the last block of the
chain that anybody can go on from, with exactly its carriers.
-/

namespace Sglang.Router
open Lib TreeState List Option

variable {parentOf : Int64 → Option Int64} {own : Holdings} {f : Fin nShards → TreeState}

/-! ## Blocks that lead somewhere -/

/-- `h'` is the block `h` or comes after it in a chain. -/
inductive Below (parentOf : Int64 → Option Int64) (h : Int64) : Int64 → Prop
  | refl : Below parentOf h h
  | step {h' h'' : Int64} : parentOf h'' = some h' → Below parentOf h h' → Below parentOf h h''

variable {h : Int64}

lemma Below.head {h' h'' : Int64} (hp : parentOf h' = some h) (hb : Below parentOf h' h'') :
    Below parentOf h h'' := by
  induction hb with
  | refl => exact .step hp .refl
  | step hp' _ ih => exact .step hp' ih

/-- Some worker holds the block or one that comes after it. -/
def Known (parentOf : Int64 → Option Int64) (own : Holdings) (h : Int64) : Prop :=
  ∃ w h', own.Holds w h' ∧ Below parentOf h h'

/-- The nodes of a tidy index are the blocks that lead to one that is held. -/
lemma Indexes.known_iff (hI : Indexes parentOf own f) (ht : ∀ i, (f i).Tidy []) (h : Int64) :
    Known parentOf own h ↔ ∃ i id n, (f i).node id = some n ∧ id ≠ rootId ∧ n.blockHash = h := by
  constructor
  · rintro ⟨w, h', hw, hb⟩
    -- up the chain from a block that is held
    have hnode := hI.covers hw
    clear hw
    induction hb with
    | refl => exact hnode
    | step hp _ ih =>
      obtain ⟨i, id, n, hn, hne, rfl⟩ := hnode
      obtain ⟨q, qn, hq, -, hqn, -⟩ := (hI.planted i).shaped.up hn hne
      have hlink := (hI.planted i).link hn hq hqn
      rw [hp] at hlink
      split at hlink
      · cases hlink
      · next hqr => exact ih ⟨i, q, qn, hqn, hqr, (some_inj.1 hlink).symm⟩
  · rintro ⟨i, id, n, hn, hne, rfl⟩
    -- down to a node with a carrier: there is one, since ids grow along chains
    induction hk : (f i).nextId - id using Nat.strong_induction_on generalizing id n with
    | _ k ih =>
      have hlt := (hI.planted i).shaped.fresh hn
      have hpr : n.prunable = false := by
        by_contra hpr
        exact not_mem_nil (ht i id n hn hne (Bool.not_eq_false _ ▸ hpr))
      rw [Node.prunable, Bool.and_eq_false_iff, Map.not_isEmpty_iff, Map.not_isEmpty_iff] at hpr
      obtain ⟨w, hw⟩ | ⟨x, hx⟩ := hpr
      · rw [hI.agrees i id n hn hne w, Ne, Tiers.entry_eq_none, Bool.not_eq_true] at hw
        exact ⟨w, n.blockHash, hw, .refl⟩
      · obtain ⟨c, hc⟩ := ne_none_iff_exists'.1 hx
        obtain ⟨cn, hcn, hpar, rfl⟩ := (hI.planted i).shaped.down hn hc
        have hcr := (hI.planted i).shaped.ne_root_of_child hn hc
        obtain ⟨q, qn, hq, hqc, -⟩ := (hI.planted i).shaped.up hcn hcr
        rw [hpar, some_inj] at hq
        subst hq
        have hlink := (hI.planted i).link hcn hpar hn
        rw [if_neg hne] at hlink
        obtain ⟨w, h', hw, hb⟩ := ih _ (hk ▸ Nat.sub_lt_sub_left hlt hqc) c cn hcn hcr rfl
        exact ⟨w, h', hw, hb.head hlink⟩

/-! ## Walking a chain -/

/-- Every lookup starts at the root of the shard of its first block. -/
lemma Indexes.stands_root (hI : Indexes parentOf own f) (h : Int64) :
    Stands (shardOf h) (f (shardOf h)) rootId none h := by
  obtain ⟨r, hr, -⟩ := (hI.planted (shardOf h)).shaped.root
  exact ⟨⟨r, hr, (if_pos rfl).symm⟩, fun _ => rfl⟩

variable {i : Fin nShards}

/-- A step along a chain goes to the node of the next block, or there is none. -/
lemma Indexes.stands_next (hI : Indexes parentOf own f) {current c : NodeId}
    (hc : (f i).child current h = some c) (x : Int64) : Stands i (f i) c (some h) x := by
  obtain ⟨n, hn, hne, hh, -⟩ := hI.child_spec hc
  exact ⟨⟨n, hn, by rw [if_neg hne, hh]⟩, fun hroot => absurd hroot hne⟩

/-- How many leading blocks of `hs` the worker holds. -/
def Holdings.depth (own : Holdings) (w : KvWorkerId) (hs : List Int64) : Nat :=
  (hs.takeWhile fun h => own.Holds w h).length

/-- How many blocks from the front a worker holds. -/
lemma Holdings.depth_cons (own : Holdings) (w : KvWorkerId) (h : Int64) (hs : List Int64) :
    own.depth w (h :: hs) = if own.Holds w h then own.depth w hs + 1 else 0 := by
  grind [depth, takeWhile_cons]

lemma Holdings.reaches_depth (own : Holdings) (w : KvWorkerId) (hs : List Int64) :
    Reaches (own.Holds w) hs (own.depth w hs) := by
  induction hs with
  | nil => exact reaches_nil _
  | cons h hs ih =>
    grind [depth_cons, ih.cons, reaches_of_not]

lemma lookup_foldl_insert {α β : Type} [DecidableEq α] (v : β) (a : α) :
    ∀ (l : List α) (m : Map α β),
    (l.foldl (fun m b => m.insert b v) m).lookup a = if a ∈ l then some v else m.lookup a
  | [], m => (if_neg not_mem_nil).symm
  | b :: l, m => by
    rw [foldl_cons, lookup_foldl_insert v a l, Map.lookup_insert_ite]
    by_cases hl : a ∈ l
    · rw [if_pos hl, if_pos (mem_cons_of_mem _ hl)]
    · by_cases hb : a = b
      · rw [if_neg hl, if_pos hb, if_pos (hb ▸ mem_cons_self)]
      · rw [if_neg hl, if_neg hb, if_neg fun h => (mem_cons.1 h).elim hb hl]

/-- What `prefixDepths` answers when it stops in the state `d`. -/
def TreeState.DepthState.answer (d : DepthState) : Map KvWorkerId Nat :=
  d.alive.foldl (fun depths w => depths.insert w d.reached) d.depths

/-- Workers that are still alive at the end have the full depth, the others the one they were
dropped at. -/
lemma TreeState.DepthState.lookup_answer (d : DepthState) (w : KvWorkerId) :
    d.answer.lookup w = if w ∈ d.alive then some d.reached else d.depths.lookup w :=
  lookup_foldl_insert d.reached w d.alive d.depths

section
variable {o : IterOrder} {d : DepthState} {c : NodeId} {n : Node}

lemma current_depthStep : (depthStep o d c n).current = c := by
  rw [depthStep]
  split
  · rfl
  · rfl

lemma reached_depthStep : (depthStep o d c n).reached = d.reached + 1 := by
  rw [depthStep]
  split
  · rfl
  · rfl

variable {w : KvWorkerId}

/-- A worker stays alive as long as it carries every block so far. -/
lemma mem_alive_depthStep (h : d.reached ≠ 0) :
    w ∈ (depthStep o d c n).alive ↔ w ∈ d.alive ∧ (n.workers.lookup w).isSome = true := by
  rw [depthStep, if_neg (by omega), mem_filter]

/-- A worker that drops out is recorded with the blocks before. -/
lemma lookup_depthStep (h : d.reached ≠ 0) (w : KvWorkerId) :
    (depthStep o d c n).depths.lookup w =
      if w ∈ d.alive ∧ (n.workers.lookup w).isSome = false then some d.reached
      else d.depths.lookup w := by
  rw [depthStep, if_neg (by omega)]
  simp only [lookup_foldl_insert, mem_filter, Bool.not_eq_true', Nat.add_sub_cancel]

lemma lookup_answer_cons {s : TreeState} {h : Int64} {hs : List Int64} {k : Nat}
    (hc : s.child d.current h = some c) (hn : s.node c = some n)
    (ih : (s.depthLoop o (depthStep o d c n) hs).answer.lookup w =
      if w ∈ (depthStep o d c n).alive then some k else (depthStep o d c n).depths.lookup w) :
    (s.depthLoop o d (h :: hs)).answer.lookup w = if w ∈ (depthStep o d c n).alive then some k
      else (depthStep o d c n).depths.lookup w := by
  grind [depthLoop, DepthState.lookup_answer]

end

lemma Indexes.holds_iff_isSome {n : Node} (hw : ∀ w, n.workers.lookup w = (own w h).entry)
    (w : KvWorkerId) : (n.workers.lookup w).isSome = true ↔ own.Holds w h := by
  rw [isSome_iff_ne_none, hw w, Ne, Tiers.entry_eq_none, Bool.not_eq_true, Holdings.Holds]

/-- **The walk of `prefixDepths`** past the first block: a worker that is still alive gets what it
holds of the rest on top, the others keep what they have. -/
theorem Indexes.depthLoop_spec (hI : Indexes parentOf own f) (o : IterOrder) (w : KvWorkerId) :
    ∀ (hs : List Int64) {d : DepthState} {p}, d.reached ≠ 0 →
    Follows parentOf p hs → (∀ h ∈ hs.head?, Stands i (f i) d.current p h) →
    ((f i).depthLoop o d hs).answer.lookup w =
      if w ∈ d.alive then some (d.reached + own.depth w hs) else d.depths.lookup w
  | [], d, p, _, _, _ => d.lookup_answer w
  | h :: hs, d, p, hpos, ⟨hp, hfol⟩, hst => by
    have hst := hst h rfl
    rw [← hp] at hst
    rw [Holdings.depth_cons]
    cases hc : (f i).child d.current h with
    | none =>
      have hnot : ¬ own.Holds w h := by
        rw [Holdings.Holds, hI.not_holds hst hc w]
        exact fun hheld => by cases hheld
      simp only [depthLoop, hc]
      rw [if_neg hnot]
      exact d.lookup_answer w
    | some c =>
      obtain ⟨n, hn, -, -, hw⟩ := hI.child_spec hc
      have hsome := Indexes.holds_iff_isSome hw w
      have hpos' : (depthStep o d c n).reached ≠ 0 := reached_depthStep ▸ Nat.succ_ne_zero _
      have hnext : ∀ x ∈ hs.head?, Stands i (f i) (depthStep o d c n).current (some h) x :=
        fun x _ => by
          rw [current_depthStep]
          exact hI.stands_next hc x
      rw [lookup_answer_cons hc hn (hI.depthLoop_spec o w hs hpos' hfol hnext),
        reached_depthStep, lookup_depthStep hpos]
      simp only [mem_alive_depthStep hpos]
      by_cases hal : w ∈ d.alive
      · by_cases hheld : own.Holds w h
        · rw [if_pos ⟨hal, hsome.2 hheld⟩, if_pos hal, if_pos hheld, add_right_comm, add_assoc]
        · have hfalse := Bool.not_eq_true _ ▸ mt hsome.1 hheld
          rw [if_neg fun hx => hheld (hsome.1 hx.2), if_pos ⟨hal, hfalse⟩, if_pos hal, if_neg hheld,
            add_zero]
      · rw [if_neg fun hx => hal hx.1, if_neg fun hx => hal hx.1, if_neg hal]

variable {t : HashTree} {hs : List Int64}

/-- **Depths.** On a chain, every worker gets the number of leading blocks it holds. -/
theorem Indexes.prefixDepths_spec (hI : Indexes parentOf own t.shard) (o : IterOrder)
    (hfol : Follows parentOf none hs) (w : KvWorkerId) :
    (t.prefixDepths o none hs).lookup w =
      if own.depth w hs = 0 then none else some (own.depth w hs) := by
  cases hs with
  | nil => rfl
  | cons h hs =>
    obtain ⟨hp, hfol⟩ := hfol
    have hst := hI.stands_root h
    rw [← hp] at hst
    rw [Holdings.depth_cons]
    change ((t.shard (shardOf h)).depthLoop o ⟨rootId, 0, [], ∅⟩ (h :: hs)).answer.lookup w = _
    cases hc : (t.shard (shardOf h)).child rootId h with
    | none =>
      have hnot : ¬ own.Holds w h := by
        simp [Holdings.Holds, hI.not_holds hst hc w]
      simp only [depthLoop, hc]
      rw [if_neg hnot, if_pos rfl]
      rfl
    | some c =>
      obtain ⟨n, hn, -, -, hw⟩ := hI.child_spec hc
      have halive : w ∈ (depthStep o ⟨rootId, 0, [], ∅⟩ c n).alive ↔ own.Holds w h := by
        rw [← Indexes.holds_iff_isSome hw w, isSome_iff_exists, ← Map.mem_keys_iff]
        exact o.mem_order
      have hnext : ∀ x ∈ hs.head?, Stands (shardOf h) (t.shard (shardOf h))
          (depthStep o ⟨rootId, 0, [], ∅⟩ c n).current (some h) x := fun x _ => by
        exact hI.stands_next hc x
      rw [lookup_answer_cons hc hn (hI.depthLoop_spec o w hs (by rw [reached_depthStep]; decide)
        hfol hnext)]
      by_cases hheld : own.Holds w h
      · simp_all [reached_depthStep, zero_add, add_comm]
      · rw [if_neg (mt halive.1 hheld), if_neg hheld, if_pos rfl]
        rfl

/-! ## The longest match -/

/-- **The walk of `matchPrefix`** goes as far as the blocks lead to one that is held. -/
theorem Indexes.matchLoop_spec (hI : Indexes parentOf own f) (ht : ∀ i, (f i).Tidy []) :
    ∀ (hs : List Int64) {current : NodeId} {p : Option Int64} (k : Nat),
    Follows parentOf p hs → (∀ h ∈ hs.head?, Stands i (f i) current p h) →
    ∃ m id, (f i).matchLoop current k hs = (id, k + m) ∧ Reaches (Known parentOf own) hs m ∧
      (m = 0 → id = current) ∧
      ∀ h ∈ (hs.take m).getLast?, ∃ n, (f i).node id = some n ∧
        ∀ w, n.workers.lookup w = (own w h).entry
  | [], current, p, k, _, _ =>
    ⟨0, current, rfl, reaches_nil _, fun _ => rfl, fun h hh => (by cases hh)⟩
  | h :: hs, current, p, k, ⟨hp, hfol⟩, hst => by
    have hst := hst h rfl
    rw [← hp] at hst
    rw [matchLoop]
    cases hc : (f i).child current h with
    | none =>
      have hnot : ¬ Known parentOf own h := by
        rw [hI.known_iff ht]
        rintro ⟨j, id, n, hn, hne, hh⟩
        obtain ⟨rfl, hchild⟩ := (hI.planted i).child_of_stands (hI.planted j) hst hn hne hh
        rw [hchild rfl] at hc
        cases hc
      exact ⟨0, current, rfl, reaches_of_not hnot hs, fun _ => rfl, fun x hx => (by cases hx)⟩
    | some c =>
      obtain ⟨n, hn, hne, hh, hw⟩ := hI.child_spec hc
      have hknown : Known parentOf own h := (hI.known_iff ht h).2 ⟨i, c, n, hn, hne, hh⟩
      obtain ⟨m, id, heq, hreach, hzero, hlast⟩ :=
        hI.matchLoop_spec ht hs (k + 1) hfol fun x _ => hI.stands_next hc x
      refine ⟨m + 1, id, ?_, hreach.cons hknown, nofun, fun x hx => ?_⟩
      · exact heq.trans (by rw [add_right_comm, add_assoc])
      · rw [take_succ_cons, getLast?_cons, mem_some_iff] at hx
        cases hlast' : (hs.take m).getLast? with
        | none =>
          have hm : m = 0 := by
            by_contra hm
            rw [getLast?_eq_none_iff, take_eq_nil_iff] at hlast'
            obtain rfl | rfl := hlast'
            · exact hm rfl
            · exact hm (Nat.le_zero.1 hreach.1.1)
          rw [hlast', getD_none] at hx
          exact ⟨n, hzero hm ▸ hn, hx ▸ hw⟩
        | some y =>
          rw [hlast', getD_some] at hx
          exact hx ▸ hlast y hlast'

/-- **Matches.** On a chain, a match goes to the last block that leads to one that is held, and
reports exactly its carriers. -/
theorem Indexes.matchPrefix_spec (hI : Indexes parentOf own t.shard)
    (ht : ∀ i, (t.shard i).Tidy []) (hfol : Follows parentOf none hs) :
    Reaches (Known parentOf own) hs (t.matchPrefix none hs).matchedBlocks ∧
      ∀ w, (t.matchPrefix none hs).tiers.lookup w =
        ((hs.take (t.matchPrefix none hs).matchedBlocks).getLast?).bind fun h => (own w h).entry := by
  cases hs with
  | nil => exact ⟨reaches_nil _, fun _ => rfl⟩
  | cons h hs =>
    have hst : ∀ x ∈ (h :: hs).head?, Stands (shardOf h) (t.shard (shardOf h)) rootId none x :=
      fun x hx => by
        grind [hI.stands_root]
    obtain ⟨m, id, heq, hreach, -, hlast⟩ := hI.matchLoop_spec ht (h :: hs) 0 hfol hst
    have hres : t.matchPrefix none (h :: hs) =
        ⟨m, if 0 < m then (((t.shard (shardOf h)).node id).map Node.workers).getD ∅ else ∅⟩ := by
      change (t.shard (shardOf h)).matchPrefix none (h :: hs) = _
      have hstart : (t.shard (shardOf h)).matchStart none = rootId := rfl
      rw [TreeState.matchPrefix, if_neg (by simp), hstart, heq, zero_add]
    rw [hres]
    refine ⟨hreach, fun w => ?_⟩
    cases m with
    | zero => rfl
    | succ m =>
      cases hl : ((h :: hs).take (m + 1)).getLast? with
      | none => exact absurd (getLast?_eq_none_iff.1 hl) (by simp)
      | some x =>
        obtain ⟨n, hn, hw⟩ := hlast x hl
        rw [hn, map_some, getD_some, bind_some]
        exact hw w

/-! ## Runs -/

/-- The router's tree, and what the workers' own events say they hold. -/
structure Fleet where
  tree : HashTree
  own : Holdings

namespace Fleet

def new : Fleet := ⟨.new, .empty⟩

/-- One event of one worker; the order in which hash collections are visited may be another each
time. -/
def step (f : Fleet) (e : IterOrder × KvWorkerId × KvCacheEvent) : Option Fleet :=
  some ⟨f.tree.apply e.1 e.2.1 e.2.2, f.own.apply e.2.1 e.2.2⟩

/-- The blocks of a store are stored behind the blocks `parentOf` gives them, and its parent is
absent or held by the worker on some tier. -/
def Permits (parentOf : Int64 → Option Int64) (f : Fleet)
    (e : IterOrder × KvWorkerId × KvCacheEvent) : Prop :=
  match e.2.2 with
  | .blockStored hashes p _ =>
    Follows parentOf p hashes ∧ ∀ q, p = some q → f.own.Holds e.2.1 q
  | .blockRemoved _ _ => True
  | .allBlocksCleared => True

/-- The tree represents the holdings, and has no empty leaf. -/
structure Sound (parentOf : Int64 → Option Int64) (f : Fleet) : Prop where
  indexes : Indexes parentOf f.own f.tree.shard
  tidy : ∀ i, (f.tree.shard i).Tidy []

lemma sound_new : new.Sound parentOf := by
  constructor
  · change Indexes parentOf .empty HashTree.new.shard
    rw [HashTree.shard_new]
    exact indexes_new
  · intro i
    change (HashTree.new.shard i).Tidy []
    rw [HashTree.shard_new]
    exact tidy_new

/-- Every permitted event keeps tree and holdings in step. -/
lemma Sound.step {f f' : Fleet} {e : IterOrder × KvWorkerId × KvCacheEvent}
    (h : f.Sound parentOf) (hok : f.Permits parentOf e) (hs : f.step e = some f') :
    f'.Sound parentOf := by
  obtain ⟨o, worker, ev⟩ := e
  cases hs
  cases ev with
  | blockStored hashes p medium =>
    obtain ⟨hI, ht⟩ := h.indexes.insertTiered h.tidy o worker (.forStore medium) hok.1 hok.2
    exact ⟨hI, ht⟩
  | blockRemoved hashes medium =>
    obtain ⟨hI, ht⟩ := h.indexes.removeTiered h.tidy o worker hashes (.forRemove medium)
    exact ⟨hI, ht⟩
  | allBlocksCleared =>
    obtain ⟨hI, ht⟩ := h.indexes.clearWorker h.tidy o worker
    exact ⟨hI, ht⟩

/-- In every run of permitted events the tree says what the workers hold. -/
lemma sound_of_run {f : Fleet} (h : Run step (Permits parentOf) new f) : f.Sound parentOf :=
  h.invariant sound_new fun _ _ _ hs hok hstep => hs.step hok hstep

end Fleet

/-- **The index is exact.**  After any events of any workers, in which every block is stored behind
the same block and every store's parent is absent or held by its worker, on every chain that starts
with a first block: a worker's depth is the number of leading blocks its own events leave it, and it
is omitted if that is zero; a match goes as far as the blocks lead to one that somebody holds, and
reports for the last of them exactly the workers and tiers the events leave there. -/
theorem index_exact (parentOf : Int64 → Option Int64) {f : Fleet}
    (hrun : Run Fleet.step (Fleet.Permits parentOf) .new f) {hs : List Int64}
    (hchain : Follows parentOf none hs) :
    (∀ o w, ∃ d, Reaches (f.own.Holds w) hs d ∧
      (f.tree.prefixDepths o none hs).lookup w = if d = 0 then none else some d) ∧
    Reaches (Known parentOf f.own) hs (f.tree.matchPrefix none hs).matchedBlocks ∧
    ∀ w, (f.tree.matchPrefix none hs).tiers.lookup w =
      ((hs.take (f.tree.matchPrefix none hs).matchedBlocks).getLast?).bind fun h =>
        (f.own w h).entry := by
  have hsound := Fleet.sound_of_run hrun
  refine ⟨fun o w => ⟨f.own.depth w hs, f.own.reaches_depth w hs, ?_⟩, ?_⟩
  · exact hsound.indexes.prefixDepths_spec o hchain w
  · exact hsound.indexes.matchPrefix_spec hsound.tidy hchain

/-- The chain of the blocks 1, 2, 3. -/
def oneTwoThree (h : Int64) : Option Int64 :=
  if h = 2 then some 1 else if h = 3 then some 2 else none

/-- Two workers store the chain, one of them in two parts on two tiers; then the other one loses its
only copy of the middle block. -/
def lostMiddle : List (IterOrder × KvWorkerId × KvCacheEvent) :=
  [(.inOrder, ⟨"a", 0⟩, .blockStored [1, 2, 3] none none),
    (.inOrder, ⟨"b", 0⟩, .blockStored [1] none (some "CPU_PINNED")),
    (.inOrder, ⟨"b", 0⟩, .blockStored [2, 3] (some 1) none),
    (.inOrder, ⟨"a", 0⟩, .blockRemoved [2] (some "GPU"))]

lemma permits_lostMiddle : okList Fleet.step (Fleet.Permits oneTwoThree) .new lostMiddle := by
  have h1 : oneTwoThree 1 = none := by decide
  have h2 : oneTwoThree 2 = some 1 := by decide
  have h3 : oneTwoThree 3 = some 2 := by decide
  refine ⟨⟨⟨h1, h2, h3, trivial⟩, nofun⟩, ⟨⟨h1, trivial⟩, nofun⟩, ⟨⟨h2, h3, trivial⟩, ?_⟩, trivial,
    trivial⟩
  rintro q hq
  cases hq
  decide +kernel

/-- The worker that lost the middle block is found up to the block before it, the other one to the
end. -/
theorem index_exact_lostMiddle : ∃ f : Fleet,
    Run Fleet.step (Fleet.Permits oneTwoThree) .new f ∧
      (f.tree.prefixDepths .inOrder none [1, 2, 3]).lookup ⟨"a", 0⟩ = some 1 ∧
      (f.tree.prefixDepths .inOrder none [1, 2, 3]).lookup ⟨"b", 0⟩ = some 3 ∧
      ∃ d, Reaches (f.own.Holds ⟨"a", 0⟩) [1, 2, 3] d ∧
        (f.tree.prefixDepths .inOrder none [1, 2, 3]).lookup ⟨"a", 0⟩ =
          if d = 0 then none else some d := by
  have hchain : Follows oneTwoThree none [1, 2, 3] := ⟨by decide, by decide, by decide, trivial⟩
  exact Run.exists_of lostMiddle
    (p := fun f => (f.tree.prefixDepths .inOrder none [1, 2, 3]).lookup ⟨"a", 0⟩ = some 1 ∧
      (f.tree.prefixDepths .inOrder none [1, 2, 3]).lookup ⟨"b", 0⟩ = some 3)
    permits_lostMiddle (by decide +kernel) fun f hrun htest =>
      ⟨htest.1, htest.2, (index_exact oneTwoThree hrun hchain).1 .inOrder _⟩

end Sglang.Router
