import Sglang.Radix.Runs

/-!
# Locks that are held, and what can be evicted

A client locks a node for as long as it uses its path, and gives each lock back once.  The locks of
a node are then those held at or below it (`Books.Locked`), so that a locked node has a locked
parent, and eviction can go on until nothing but locked nodes is left.

* `locked_prefix_kept`: while a lock is held, the prefix keeps its slots, whatever other clients do.
* `eviction_exact`: `evict` takes down unlocked leaves only, goes on until enough tokens are free or
  nothing unlocked is left, and reports exactly what it freed; the counters are exact throughout.
-/

namespace Sglang.Radix
open Lib List Option Function Finset

variable {b b' : Books} {live live' : Finset Nat} {path path' : Nat → List Page} {held : List Nat}
  {n : Nat}

namespace Books

/-- **The locks of a node are those held at or below it.** -/
structure Locked (b : Books) (live : Finset Nat) (path : Nat → List Page) (held : List Nat) :
    Prop where
  mem : ∀ {n}, n ∈ held → n = b.rootNode ∨ n ∈ live
  count : ∀ {n}, n ∈ live → (b.node n).lockRef = held.countP fun m => path n <+: path m

namespace Locked

lemma nonneg (hl : b.Locked live path held) (hn : n ∈ live) : 0 ≤ (b.node n).lockRef := by
  simp [hl.count hn]

/-- A lock at a node is one at its parent too. -/
lemma closed (hl : b.Locked live path held) (h : b.Shaped live path) : b.LocksClosed live := by
  intro n hn hlock hp
  rw [hl.count hn] at hlock
  rw [hl.count hp]
  refine Int.lt_of_lt_of_le hlock (Int.ofNat_le.2 (countP_mono_left fun m _ hpre => ?_))
  exact decide_eq_true ((h.trie.path_parent hn).trans (of_decide_eq_true hpre))

/-- A node that somebody holds is locked. -/
lemma pos_of_mem (hl : b.Locked live path held) (hmem : n ∈ held) (hn : n ∈ live) :
    0 < (b.node n).lockRef := by
  rw [hl.count hn]
  exact Int.ofNat_lt.2 (countP_pos_iff.2 ⟨n, hmem, decide_eq_true (prefix_refl _)⟩)

end Locked
end Books

/-! ## What the changes do to the locks -/

/-- The upper part of a split node is under the locks of the whole. -/
lemma Books.Locked.split (hl : b.Locked live path held) (h : b.Shaped live path) {child k : Nat}
    {childKey newKey : ChildKey} (hc : child ∈ live) (hk : 0 < k)
    (hkl : k < (b.label child).length) :
    (b.split child (k * b.pageSize) childKey newKey).Locked (insert b.counter live)
      (b.splitPath path child k) held := by
  have hold : ∀ {m}, m = b.rootNode ∨ m ∈ live → b.splitPath path child k m = path m := fun hm =>
    update_of_ne (h.counter_ne hm) _ _
  refine ⟨fun hm => (hl.mem hm).imp_right mem_insert_of_mem, fun {n} hn => ?_⟩
  rcases mem_insert.1 hn with rfl | hn
  · rw [split_node_new h hc]
    refine (hl.count hc).trans (congrArg _ (countP_congr fun m hm => ?_))
    rw [hold (hl.mem hm), splitPath, update_self, decide_eq_true_iff, decide_eq_true_iff]
    rcases hl.mem hm with rfl | hm
    · rw [h.trie.path_root, prefix_nil, prefix_nil, append_eq_nil_iff]
      refine iff_of_false (h.trie.path_ne_nil hc) fun hnil => ?_
      have hlen := congrArg List.length hnil.2
      rw [length_take, length_nil] at hlen
      omega
    · exact (h.trie.split_prefix_iff hc hk hm).symm
  · have hlock : ((b.split child (k * b.pageSize) childKey newKey).node n).lockRef =
        (b.node n).lockRef := by
      grind [split_node_child, split_node_old, h.counter_ne]
    rw [hlock, hl.count hn]
    refine congrArg _ (countP_congr fun m hm => ?_)
    rw [hold (.inr hn), hold (hl.mem hm)]

/-- The upper half of a split node takes over all its locks. -/
lemma Resplit.locked (h : Resplit b live path b' live' path') (hb : b.Shaped live path)
    (hl : b.Locked live path held) : b'.Locked live' path' held := by
  induction h with
  | same => exact hl
  | split h hc hk hkl _ _ ih => exact ih.split (h.shaped hb) hc hk hkl

lemma Books.Locked.hung (hl : b.Locked live path held) (h : b.Shaped live path) {u : Nat}
    {ck : ChildKey} {key : RadixKey} {value : List Nat} (hh : Books.Hangs b live path u ck key value) :
    (b.hung u ck key value).Locked (insert b.counter live) (b.hangPath path u key) held := by
  have hu := h.counter_ne hh.mem
  have hold : ∀ {m}, m = b.rootNode ∨ m ∈ live → b.hangPath path u key m = path m := fun hm =>
    update_of_ne (h.counter_ne hm) _ _
  refine ⟨fun hm => (hl.mem hm).imp_right mem_insert_of_mem, fun {n} hn => ?_⟩
  rcases mem_insert.1 hn with rfl | hn
  · rw [show (b.hung u ck key value).node b.counter = _ from hang_node_new hu]
    refine congrArg Int.ofNat (countP_eq_zero.2 fun m hm hpre => ?_).symm
    rw [hold (hl.mem hm), hangPath, update_self, decide_eq_true_iff] at hpre
    -- The way to the leaf leaves `u` with a page no edge has.
    obtain ⟨pg, rest, hcons⟩ := exists_cons_of_ne_nil hh.pages_ne_nil
    have hlong : path u ++ [pg] <+: path u ++ key.pages b.pageSize := by
      rw [prefix_append_right_inj, hcons]
      exact ⟨rest, rfl⟩
    have hne : path m ≠ [] := fun hnil => by
      grind [append_eq_nil_iff]
    have hlive := h.trie.mem_of_path_ne_nil (hl.mem hm) hne
    obtain ⟨x, hx, hend, -⟩ := h.trie.exists_endsOn hlive
      (fun hnil => hh.pages_ne_nil (append_eq_nil_iff.1 hnil).2) hpre
    refine h.trie.not_endsOn_of_no_edge hh.mem (fun y hy hpar hhead => ?_) hlong hx hend
    have hlook := (h.lookup_iff hh.mem hh.le_len hh.childKey).2 ⟨hy, hpar, by
      rw [hhead, hcons]
      rfl⟩
    cases hh.new.symm.trans hlook
  · have hlock : ((b.hung u ck key value).node n).lockRef = (b.node n).lockRef :=
      (hang_node_old (h.counter_ne (.inr hn))).2.2.2
    rw [hlock, hl.count hn]
    refine congrArg _ (countP_congr fun m hm => ?_)
    rw [hold (.inr hn), hold (hl.mem hm)]

lemma RadixCache.Inserted.locked {ks : List Page} {value : List Nat} {L last : Nat}
    (h : Inserted b live path ks value b' live' path' L last) (hb : b.Shaped live path)
    (hl : b.Locked live path held) : b'.Locked live' path' held := by
  cases h with
  | found hreach => exact hreach.resplit.locked hb hl
  | grown hreach _ hang =>
    exact (hreach.resplit.locked hb hl).hung (hreach.resplit.shaped hb) hang

lemma Evicted.locked {removed : List Nat} (h : Evicted b live b' live' removed)
    (hl : b.Locked live path held) : b'.Locked live' path held := by
  refine ⟨fun {n} hn => ?_, fun {n} hn => ?_⟩
  · rw [h.consts.2.1]
    refine (hl.mem hn).imp_right fun hlive => h.mem_iff.2 ⟨hlive, fun hrem => ?_⟩
    exact not_lt.2 (h.lockRef_nonpos hrem) (hl.pos_of_mem hn hlive)
  · rw [(h.node n).2.2.2]
    exact hl.count (h.mem_iff.1 hn).1

/-- A client that locks a node holds it once more. -/
lemma Relocked.locked (h : Relocked b live path n 1 b') (hn : n = b.rootNode ∨ n ∈ live)
    (hl : b.Locked live path held) : b'.Locked live path (n :: held) := by
  refine ⟨fun {m} hm => ?_, fun {m} hm => ?_⟩
  · grind [h.same.rootNode, hl.mem]
  · rw [h.lockRef hm, hl.count hm, countP_cons]
    by_cases hpre : path m <+: path n
    · simp [hpre]
    · simp [hpre]

/-- A client that gives back one of its locks holds it once less. -/
lemma Relocked.unlocked (h : Relocked b live path n (-1) b') (hn : n ∈ held)
    (hl : b.Locked live path held) : b'.Locked live path (held.erase n) := by
  refine ⟨fun {m} hm => ?_, fun {m} hm => ?_⟩
  · grind [h.same.rootNode, hl.mem]
  · have hcount := (perm_cons_erase hn).countP_eq fun x => path m <+: path x
    rw [h.lockRef hm, hl.count hm, hcount]
    by_cases hpre : path m <+: path n
    · simp [hpre]
    · simp [hpre]

/-- A node that was there keeps its path. -/
lemma Resplit.path_old (h : Resplit b live path b' live' path') (hb : b.Shaped live path)
    (hn : n = b.rootNode ∨ n ∈ live) : (n = b'.rootNode ∨ n ∈ live') ∧ path' n = path n := by
  induction h with
  | same => exact ⟨hn, rfl⟩
  | split h _ _ _ _ _ ih =>
    exact ⟨ih.1.imp_right mem_insert_of_mem,
      (update_of_ne ((h.shaped hb).counter_ne ih.1) _ _).trans ih.2⟩

lemma RadixCache.Inserted.path_old {ks : List Page} {value : List Nat} {L last : Nat}
    (h : Inserted b live path ks value b' live' path' L last) (hb : b.Shaped live path)
    (hn : n = b.rootNode ∨ n ∈ live) : path' n = path n := by
  cases h with
  | found hr => exact (hr.resplit.path_old hb hn).2
  | grown hr =>
    obtain ⟨hn', hpath⟩ := hr.resplit.path_old hb hn
    exact (update_of_ne ((hr.resplit.shaped hb).counter_ne hn') _ _).trans hpath

/-! ## Clients -/

namespace RadixCache

/-- A cache with the locks that were taken and not given back. -/
structure Client where
  cache : RadixCache
  held : List Nat

namespace Client

/-- The locks that are held after a call. -/
def heldAfter (held : List Nat) : Event → List Nat
  | .incLockRef node => node :: held
  | .decLockRef node => held.erase node
  | .reset => []
  | _ => held

/-- A call. -/
def step (q : Heapq) (s : Client) (e : Event) : Option Client :=
  (s.cache.step q e).map fun c => ⟨c, heldAfter s.held e⟩

/-- What clients keep to: a slot for each unit, locks on nodes of the tree, and each lock given back
once. -/
def Permits (s : Client) : Event → Prop
  | .insert params => InsertParams.Fits s.cache params
  | .incLockRef node => s.cache.InTree node
  | .decLockRef node => node ∈ s.held
  | _ => True

/-- What every call of a client keeps. -/
structure SoundAt (s : Client) (live : Finset Nat) (path : Nat → List Page) : Prop where
  cache : s.cache.SoundAt live path
  locked : s.cache.books.Locked live path s.held

variable {s s' : Client} {e : Event} {q : Heapq}

lemma permits_cache (hs : s.SoundAt live path) (hp : s.Permits e) : s.cache.Permits e := by
  cases e with
  | decLockRef n => exact (inTree_iff hs.cache.shaped).2 (hs.locked.mem hp)
  | insert | incLockRef => exact hp
  | matchPrefix | evict | reset => trivial

/-- Every permitted call keeps the locks those that are held. -/
lemma locked_of_moved {c' : RadixCache} (hs : s.SoundAt live path) (hp : s.Permits e)
    (hm : Moved s.cache live path e c' live' path') :
    c'.books.Locked live' path' (heldAfter s.held e) := by
  cases hm with
  | inserted _ h => exact h.locked hs.cache.shaped hs.locked
  | skipped => exact hs.locked
  | matched h => exact h.locked hs.cache.shaped hs.locked
  | locked hn h => exact h.locked hn hs.locked
  | unlocked _ h => exact h.unlocked hp hs.locked
  | evicted h => exact h.locked hs.locked
  | reset => exact ⟨fun hn => absurd hn not_mem_nil, fun hn => absurd hn (notMem_empty _)⟩

/-- In every run of permitted calls the tree is sound and its locks are those that are held. -/
lemma sound_of_run {disable isEagle : Bool} {pageSize : Nat} {strategy : EvictionStrategy}
    {clock : Nat → Nat} (hpos : 0 < pageSize)
    (hrun : Run (step q) Permits ⟨init disable pageSize isEagle strategy clock, []⟩ s) :
    ∃ live path, s.SoundAt live path := by
  refine hrun.invariant (I := fun s => ∃ live path, s.SoundAt live path) ?_
    fun s e s' ⟨live, path, hs⟩ hp hstep => ?_
  · exact ⟨∅, fun _ => [], soundAt_reset hpos, fun hn => absurd hn not_mem_nil,
      fun hn => absurd hn (notMem_empty _)⟩
  · obtain ⟨c', live', path', hstep', hm⟩ := step_moved q hs.cache (permits_cache hs hp)
    rw [step, hstep', map_some, some_inj] at hstep
    subst hstep
    exact ⟨live', path', hm.sound hs.cache, locked_of_moved hs hp hm⟩

/-! ### What a lock keeps -/

/-- A lock on `n`, where `pn` leads, is held, and what is `cached` on its path is cached. -/
def Keeps (n : Nat) (pn : List Page) (cached : List Page → List Nat → Prop) (s : Client) : Prop :=
  ∃ live path, s.SoundAt live path ∧ n ∈ s.held ∧ path n = pn ∧ ∀ p slots, p <+: pn →
    cached p slots → s.cache.books.Caches live path p slots

lemma Keeps.next {pn : List Page} {cached : List Page → List Nat → Prop}
    (h : Keeps n pn cached s) (hok : s.Permits e) (hn' : n ∈ heldAfter s.held e)
    (hstep : step q s e = some s') : Keeps n pn cached s' := by
  obtain ⟨live, path, hs, hn, rfl, hkept⟩ := h
  obtain ⟨c', live', path', hstep', hm⟩ := step_moved q hs.cache (permits_cache hs hok)
  rw [step, hstep', map_some, some_inj] at hstep
  subst hstep
  have hsound : Client.SoundAt ⟨c', _⟩ live' path' := ⟨hm.sound hs.cache, locked_of_moved hs hok hm⟩
  have hsh := hs.cache.shaped
  have hmem := hs.locked.mem hn
  suffices hgoal : path' n = path n ∧ ∀ p slots, p <+: path n →
      s.cache.books.Caches live path p slots → c'.books.Caches live' path' p slots from
    ⟨live', path', hsound, hn', hgoal.1, fun p slots hp => hgoal.2 p slots hp ∘ hkept p slots hp⟩
  cases hm with
  | inserted _ hi => exact ⟨hi.path_old hsh hmem, fun _ _ _ hc => (hi.caches hsh).2 (.inl hc)⟩
  | skipped => exact ⟨rfl, fun _ _ _ => id⟩
  | matched hr => exact ⟨(hr.path_old hsh hmem).2, fun _ _ _ => (hr.caches hsh).2⟩
  | locked _ hr | unlocked _ hr =>
    refine ⟨rfl, fun p slots _ hc => ?_⟩
    rwa [Books.Caches, hr.same.parentOf_eq, hr.same.label_eq,
      show Books.vals _ = s.cache.books.vals by grind [Books.vals, hr.same.value, hr.same.pageSize]]
  | evicted he =>
    refine ⟨rfl, fun p slots hp hc => ?_⟩
    obtain ⟨m, hm, j, hj, heq, hslots⟩ := hc
    have hend := (hsh.trie.endsOn_iff hm).2 ⟨j, hj, heq⟩
    have hpos : 0 < (path n).length :=
      ((Nat.zero_le _).trans_lt (hsh.trie.length_lt_of_enters hm hend.1)).trans_le hp.length_le
    have hpre := hsh.trie.path_of_enters hm
      (hsh.trie.mem_of_path_ne_nil hmem (ne_nil_of_length_pos hpos)) (hend.1.trans hp)
    refine ⟨m, he.mem_iff.2 ⟨hm, fun hrem => not_lt.2 (he.lockRef_nonpos hrem) ?_⟩, j, ?_⟩
    · -- The lock on `n` counts at `m`.
      rw [hs.locked.count hm]
      exact Int.ofNat_lt.2 (countP_pos_iff.2 ⟨n, hn, decide_eq_true hpre⟩)
    · grind [Books.label, Books.vals, Books.parentOf, he.node m, he.consts]
  | reset => cases hn'

/-- **A locked prefix keeps its slots.**  Whatever clients do while a lock on `n` is held, `n` stays
where it is and the prefixes of its path stay cached with the slots they have. -/
theorem locked_prefix_kept {disable isEagle : Bool} {pageSize : Nat} {strategy : EvictionStrategy}
    {clock : Nat → Nat} (hpos : 0 < pageSize)
    (hrun : Run (step q) Permits ⟨init disable pageSize isEagle strategy clock, []⟩ s)
    (hn : n ∈ s.held)
    (hrun' : Run (step q) (fun s e => s.Permits e ∧ n ∈ heldAfter s.held e) s s') :
    ∃ pn, s.cache.Leads n pn ∧ s'.cache.Leads n pn ∧
      ∀ p slots, p <+: pn → s.cache.Cached p slots → s'.cache.Cached p slots := by
  obtain ⟨live, path, hs⟩ := sound_of_run hpos hrun
  have hstart : Keeps n (path n) s.cache.Cached s :=
    ⟨live, path, hs, hn, rfl, fun _ _ _ => (cached_iff hs.cache.shaped).1⟩
  obtain ⟨live', path', hs', hn', hpath, hkept⟩ := hrun'.invariant hstart
    fun _ _ _ h hok hstep => h.next hok.1 hok.2 hstep
  exact ⟨path n, (leads_iff hs.cache.shaped).2 ⟨hs.locked.mem hn, rfl⟩,
    (leads_iff hs'.cache.shaped).2 ⟨hs'.locked.mem hn', hpath.symm⟩,
    fun p slots hp hc => (cached_iff hs'.cache.shaped).2 (hkept p slots hp hc)⟩

/-- A node is inserted and locked, and an eviction leaves it. -/
theorem locked_prefix_kept_over_eviction : ∃ s s' : Client,
    Run (step .least) Permits ⟨twoTokens false, []⟩ s ∧ step .least s (.evict 10) = some s' ∧
      ∃ pn, s'.cache.Leads 1 pn := by
  obtain ⟨s1, hstep1, h1⟩ := (any_eq_true _ _).1 (by decide +kernel :
    (step .least ⟨twoTokens false, []⟩ (.insert fiveTokens)).any (fun s1 =>
      (s1.cache.heap s1.cache.rootNode).children.lookup (.plain (.ints [1, 2])) = some 1 &&
        (step .least s1 (.incLockRef 1)).any fun s => 1 ∈ s.held && (step .least s (.evict 10)).any
          fun _ => true) = true)
  obtain ⟨hlook, h2⟩ := (Bool.and_eq_true _ _).mp h1
  obtain ⟨s, hstep, h3⟩ := (any_eq_true _ _).1 h2
  obtain ⟨hheld, h4⟩ := (Bool.and_eq_true _ _).mp h3
  obtain ⟨s', hevict, -⟩ := (any_eq_true _ _).1 h4
  have hrun : Run (step .least) Permits ⟨twoTokens false, []⟩ s :=
    (Run.start.next (e := .insert fiveTokens) (fits_fiveTokens false) hstep1).next
      (e := .incLockRef 1) ⟨_, .child .root (of_decide_eq_true hlook)⟩ hstep
  obtain ⟨pn, -, hlead, -⟩ := locked_prefix_kept (by decide) hrun (of_decide_eq_true hheld)
    (.next (e := .evict 10) .start ⟨trivial, of_decide_eq_true hheld⟩ hevict)
  exact ⟨s, s', hrun, hevict, pn, hlead⟩

end Client

/-! ## Exact accounts and safe eviction -/

/-- The nodes of the tree, but the root. -/
def IsNode (c : RadixCache) (n : Nat) : Prop := c.InTree n ∧ n ≠ c.rootNode

/-- The nodes at and below `n`. -/
inductive Below (c : RadixCache) (n : Nat) : Nat → Prop
  | self : Below c n n
  | child {m m' : Nat} {ck : ChildKey} (h : Below c n m)
      (hm : (c.heap m).children.lookup ck = some m') : Below c n m'

/-- **The counters and the leaf set say what is in the tree.** -/
structure Exact (c : RadixCache) (live : Finset Nat) : Prop where
  mem_live : ∀ n, n ∈ live ↔ c.IsNode n
  evictableSize : c.evictableSize =
    ∑ n ∈ live.filter fun n => (c.heap n).lockRef = 0, ((c.heap n).key.len : Int)
  protectedSize : c.protectedSize =
    ∑ n ∈ live.filter fun n => 0 < (c.heap n).lockRef, ((c.heap n).key.len : Int)
  nodup : c.evictableLeaves.Nodup
  leaves : ∀ n, n ∈ c.evictableLeaves ↔
    c.IsNode n ∧ (c.heap n).lockRef = 0 ∧ (c.heap n).children.entries = []

/-- **What an eviction of `numTokens` does**: `removed` are the nodes taken down, in order. -/
structure Evicts (c : RadixCache) (numTokens : Nat) (res : EvictResult) (c' : RadixCache)
    (removed : List Nat) : Prop where
  nodup : removed.Nodup
  mem_removed : ∀ n, n ∈ removed ↔ c.IsNode n ∧ ¬ c'.IsNode n
  kept : ∀ n, c'.IsNode n → c.IsNode n ∧ (c'.heap n).value = (c.heap n).value
  freed : res.freed = removed.map fun n => ((c.heap n).value, 0)
  count : res.numTokensEvicted = (removed.map fun n => (c.heap n).value.length).sum
  /-- No node under a lock goes, and none above one. -/
  safe : ∀ n ∈ removed, ∀ m, c.Below n m → (c.heap m).lockRef = 0
  enough : numTokens ≤ res.numTokensEvicted ∨ ∀ n, c'.IsNode n → 0 < (c'.heap n).lockRef

variable {c c' : RadixCache} {s : Client}

lemma isNode_iff (h : c.books.Shaped live path) : c.IsNode n ↔ n ∈ live := by
  rw [IsNode, inTree_iff h]
  exact ⟨fun hn => hn.1.resolve_left hn.2, fun hn => ⟨.inr hn, h.ne_root hn⟩⟩

lemma exact_of_sound (hs : s.SoundAt live path) : s.cache.Exact live := by
  have hzero : ∀ {n}, n ∈ live → ((s.cache.heap n).lockRef ≤ 0 ↔ (s.cache.heap n).lockRef = 0) :=
    fun hn => ⟨fun hle => Int.le_antisymm hle (hs.locked.nonneg hn), Int.le_of_eq⟩
  have ha := hs.cache.accounted
  refine ⟨fun n => (isNode_iff hs.cache.shaped).symm, ?_, ?_, ha.nodup, fun n => ?_⟩
  · refine ha.evictable.trans ?_
    rw [sum_filter]
    refine sum_congr rfl fun n hn => ?_
    exact if_congr (hzero hn) rfl rfl
  · refine ha.protects.trans ?_
    rw [sum_filter]
    refine sum_congr rfl fun n _ => ?_
    rw [protectedLen, ← ite_not]
    exact if_congr not_le rfl rfl
  · rw [isNode_iff hs.cache.shaped]
    refine (ha.leaves n).trans (and_congr_right fun hn => ?_)
    exact and_congr_left fun _ => hzero hn

/-- What is above a locked node is locked. -/
lemma locked_of_below (hs : s.SoundAt live path) {m : Nat} (hn : n ∈ live)
    (hbelow : s.cache.Below n m) :
    m ∈ live ∧ (0 < (s.cache.heap m).lockRef → 0 < (s.cache.heap n).lockRef) := by
  induction hbelow with
  | self => exact ⟨hn, id⟩
  | child _ hm ih =>
    obtain ⟨hlive, hpar, -⟩ := (hs.cache.shaped.children (.inr ih.1)).1 hm
    refine ⟨hlive, fun hlock => ih.2 ?_⟩
    have hup := hs.locked.closed hs.cache.shaped hlive hlock (hpar.symm ▸ ih.1)
    rwa [hpar] at hup

/-- In a sound state `evict` does not fail and does what `Evicts` says. -/
lemma evicts_of_sound (q : Heapq) (hs : s.SoundAt live path) (numTokens : Nat) :
    ∃ res c' removed, s.cache.evict q numTokens = .ok (res, c') ∧
      s.cache.Evicts numTokens res c' removed := by
  have h := hs.cache.shaped
  obtain ⟨res, c', live', removed, hevict, hev, hrep, hend⟩ :=
    evict_spec q h hs.cache.accounted hs.cache.disabled numTokens
  have h' := hev.shaped h
  refine ⟨res, c', removed, hevict, hev.nodup, fun n => ?_, fun n hn => ?_, ?_, ?_, ?_, ?_⟩
  · rw [isNode_iff h, isNode_iff h', hev.mem_iff, not_and, not_not]
    exact ⟨fun hn => ⟨hev.mem_of_removed hn, fun _ => hn⟩, fun hn => hn.2 hn.1⟩
  · rw [isNode_iff h', hev.mem_iff] at hn
    exact ⟨(isNode_iff h).2 hn.1, (hev.node n).2.2.1⟩
  · exact hrep.freed
  · exact hrep.count.trans (zero_add _)
  · intro n hn m hbelow
    obtain ⟨hm, hlock⟩ := locked_of_below hs (hev.mem_of_removed hn) hbelow
    have hfree := hev.lockRef_nonpos hn
    refine Int.le_antisymm ?_ (hs.locked.nonneg hm)
    by_contra hpos
    exact not_lt.2 hfree (hlock (not_le.1 hpos))
  · refine hend.imp_right fun hrun n hn => ?_
    have hleaves := hrun fun m hm => hs.locked.nonneg hm
    have hl' := hev.locked hs.locked
    exact Books.all_locked h' (hev.accounted h hs.cache.accounted) (hl'.closed h') hleaves
      ((isNode_iff h').1 hn)

/-- **Eviction is safe, sufficient and exactly accounted**, in every state of every run of a
client. -/
theorem eviction_exact {q : Heapq} {disable isEagle : Bool} {pageSize : Nat}
    {strategy : EvictionStrategy} {clock : Nat → Nat} (hpos : 0 < pageSize) {s : Client}
    (hrun : Run (Client.step q) Client.Permits ⟨init disable pageSize isEagle strategy clock, []⟩ s) :
    (∃ live, s.cache.Exact live) ∧ ∀ numTokens, ∃ res c' removed,
      s.cache.evict q numTokens = .ok (res, c') ∧ s.cache.Evicts numTokens res c' removed := by
  obtain ⟨live, path, hs⟩ := Client.sound_of_run hpos hrun
  exact ⟨⟨live, exact_of_sound hs⟩, evicts_of_sound q hs⟩

/-- After an insertion and a lookup that splits the new node, the upper part is locked: only the
lower one is evicted. -/
theorem eviction_spares_locked : ∃ s : Client,
    Run (Client.step .least) Client.Permits ⟨twoTokens false, []⟩ s ∧
    (s.cache.evict .least 10).toOption.map (fun r => r.1.freed) = some [([12, 13], 0)] ∧
    (∃ live, s.cache.Exact live) ∧ ∃ res c' removed,
      s.cache.evict .least 10 = .ok (res, c') ∧ s.cache.Evicts 10 res c' removed := by
  obtain ⟨s1, hstep1, h1⟩ := (any_eq_true _ _).1 (by decide +kernel :
    (Client.step .least ⟨twoTokens false, []⟩ (.insert fiveTokens)).any (fun s1 =>
      (Client.step .least s1 (.matchPrefix (.init [1, 2, 9, 9] none false none none))).any
        fun s2 => (s2.cache.heap s2.cache.rootNode).children.lookup (.plain (.ints [1, 2])) = some 2 &&
          (Client.step .least s2 (.incLockRef 2)).any fun s =>
            (s.cache.evict .least 10).toOption.map (fun r => r.1.freed) = some [([12, 13], 0)]) =
      true)
  obtain ⟨s2, hstep2, h2⟩ := (Option.any_eq_true _ _).1 h1
  obtain ⟨hlook, h3⟩ := (Bool.and_eq_true _ _).mp h2
  obtain ⟨s, hstep, hfreed⟩ := (Option.any_eq_true _ _).1 h3
  have hrun : Run (Client.step .least) Client.Permits ⟨twoTokens false, []⟩ s2 :=
    (Run.start.next (e := .insert fiveTokens) (fits_fiveTokens false) hstep1).next
      (e := .matchPrefix _) trivial hstep2
  have hrun : Run (Client.step .least) Client.Permits ⟨twoTokens false, []⟩ s :=
    hrun.next (e := .incLockRef 2) ⟨_, .child .root (of_decide_eq_true hlook)⟩ hstep
  obtain ⟨hexact, hevict⟩ := eviction_exact (by decide) hrun
  exact ⟨s, hrun, of_decide_eq_true hfreed, hexact, hevict 10⟩

end RadixCache
end Sglang.Radix
