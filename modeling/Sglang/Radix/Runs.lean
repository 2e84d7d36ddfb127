import Sglang.Radix.Evict

/-!
# Runs of the radix cache

The tree of a cache is what can be reached from its root by the children dictionaries
(`RadixCache.Leads`).  A run starts from a new cache and makes the calls of `Event`; what is locked
and unlocked are nodes of the tree.  `RadixCache.Sound` is kept by every call.

* `step_moved`: every permitted call succeeds and moves the tree as `Moved` says.
* `Moved.sound`: and the cache is sound afterwards.
-/

namespace Sglang.Radix
open Lib List Finset HeapEntry

namespace RadixCache

/-- `RadixCache(params)`. -/
def init (disable : Bool) (pageSize : Nat) (isEagle : Bool) (evictionStrategy : EvictionStrategy)
    (clock : Nat → Nat) : RadixCache :=
  reset
    { disable, pageSize, isEagle, evictionStrategy, clock
      heap := fun _ => ⟨∅, none, .empty, [], 0, 0, 0, 0, 0⟩
      counter := 0, rootNode := 0, evictableSize := 0, protectedSize := 0, evictableLeaves := []
      reads := 0 }

/-! ## The tree -/

/-- What leads to a node from the root. -/
inductive Leads (c : RadixCache) : Nat → List Page → Prop
  | root : Leads c c.rootNode []
  | child {n m : Nat} {p : List Page} {ck : ChildKey} (h : Leads c n p)
      (hm : (c.heap n).children.lookup ck = some m) :
      Leads c m (p ++ (c.heap m).key.pages c.pageSize)

/-- The nodes of the tree. -/
def InTree (c : RadixCache) (n : Nat) : Prop := ∃ p, c.Leads n p

/-- The slots of the last page of a prefix: those at its place on an edge. -/
def Cached (c : RadixCache) (p : List Page) (slots : List Nat) : Prop :=
  ∃ n q ck m i, c.Leads n q ∧ (c.heap n).children.lookup ck = some m ∧
    i < ((c.heap m).key.pages c.pageSize).length ∧
    p = q ++ ((c.heap m).key.pages c.pageSize).take (i + 1) ∧
    (chunks c.pageSize (c.heap m).value)[i]? = some slots

section
variable {c : RadixCache} {live : Finset Nat} {path : Nat → List Page} {n : Nat} {p : List Page}
  (h : c.books.Shaped live path)
include h

/-- The paths of the nodes are what leads to them. -/
lemma leads_iff : c.Leads n p ↔ (n = c.rootNode ∨ n ∈ live) ∧ p = path n := by
  constructor
  · intro hlead
    induction hlead with
    | root => exact ⟨.inl rfl, h.trie.path_root.symm⟩
    | child _ hm ih =>
      obtain ⟨hmem, hpar, -⟩ := (h.children ih.1).1 hm
      refine ⟨.inr hmem, ?_⟩
      rw [h.trie.path_eq hmem, hpar, ih.2]
      rfl
  · rintro ⟨hn, rfl⟩
    induction hk : (path n).length using Nat.strongRecOn generalizing n with
    | ind k ih =>
      subst hk
      rcases hn with rfl | hn
      · rw [show path c.rootNode = [] from h.trie.path_root]
        exact .root
      · have hup := ih _ (h.trie.parent_lt hn) (h.trie.parent_mem hn) rfl
        obtain ⟨ck, hck⟩ := RadixKey.childKey_ok (h.le_len hn)
        have hlook := (h.children (h.trie.parent_mem hn)).2 ⟨hn, rfl, hck⟩
        rw [h.trie.path_eq hn]
        exact .child hup hlook

/-- What can be reached by the dictionaries are the nodes that the books list. -/
lemma inTree_iff : c.InTree n ↔ n = c.rootNode ∨ n ∈ live :=
  ⟨fun ⟨_, hlead⟩ => ((leads_iff h).1 hlead).1, fun hn => ⟨path n, (leads_iff h).2 ⟨hn, rfl⟩⟩⟩

/-- To be cached, read off the dictionaries, is to be cached in the books. -/
lemma cached_iff {slots : List Nat} : c.Cached p slots ↔ c.books.Caches live path p slots := by
  constructor
  · rintro ⟨n, q, ck, m, i, hlead, hlook, hi, heq, hslots⟩
    obtain ⟨hn, rfl⟩ := (leads_iff h).1 hlead
    obtain ⟨hm, hpar, -⟩ := (h.children hn).1 hlook
    exact ⟨m, hm, i, hi, hpar.symm ▸ heq, hslots⟩
  · rintro ⟨m, hm, i, hi, heq, hslots⟩
    have hn := h.trie.parent_mem hm
    obtain ⟨ck, hck⟩ := RadixKey.childKey_ok (h.le_len hm)
    exact ⟨c.books.parentOf m, _, ck, m, i, (leads_iff h).2 ⟨hn, rfl⟩,
      (h.children hn).2 ⟨hm, rfl, hck⟩, hi, heq, hslots⟩

end

/-! ## Calls -/

/-- The calls of a run. -/
inductive Event
  | insert (params : InsertParams)
  | matchPrefix (key : RadixKey)
  | incLockRef (node : Nat)
  | decLockRef (node : Nat)
  | evict (numTokens : Nat)
  | reset

/-- What a call leaves. -/
def step (q : Heapq) (c : RadixCache) : Event → Option RadixCache
  | .insert params => (c.insert params).toOption.map (·.2)
  | .matchPrefix key => (c.matchPrefix key).toOption.map (·.2)
  | .incLockRef node => (c.incLockRef node).toOption.map (·.2)
  | .decLockRef node => (c.decLockRef node).toOption.map (·.2)
  | .evict numTokens => (c.evict q numTokens).toOption.map (·.2)
  | .reset => some c.reset

/-- What callers keep to: there is a slot for each unit that is inserted, and what is locked and
unlocked is in the tree. -/
def Permits (c : RadixCache) : Event → Prop
  | .insert params => InsertParams.Fits c params
  | .incLockRef node => c.InTree node
  | .decLockRef node => c.InTree node
  | _ => True

/-- **What every call keeps.** -/
structure SoundAt (c : RadixCache) (live : Finset Nat) (path : Nat → List Page) : Prop where
  shaped : c.books.Shaped live path
  accounted : c.books.Accounted live
  disabled : c.disable = true → live = ∅

/-- A sound cache, whatever its nodes are. -/
def Sound (c : RadixCache) : Prop := ∃ live path, SoundAt c live path

/-- After a reset there is the root alone. -/
lemma soundAt_reset {c : RadixCache} (hpos : 0 < c.pageSize) : SoundAt c.reset ∅ fun _ => [] := by
  have hroot : c.reset.books.node c.reset.rootNode = ⟨∅, none, .empty, [], 1⟩ := by
    simp [reset, newNode, monotonic, modify, books, TreeNode.core]
  refine ⟨?_, ?_, fun _ => rfl⟩
  · constructor
    · exact hpos
    · exact ⟨notMem_empty _, rfl, nofun, nofun, nofun, nofun⟩
    · exact nofun
    · intro p hp ck n
      obtain rfl := hp.resolve_right (notMem_empty p)
      show (c.reset.books.node c.reset.rootNode).children.lookup ck = some n ↔ _
      rw [hroot]
      exact ⟨nofun, fun hn => absurd hn.1 (notMem_empty n)⟩
    · intro n hn
      obtain rfl := hn.resolve_right (notMem_empty n)
      exact Nat.lt_succ_self c.counter
    · exact nofun
    · exact nofun
    · exact nofun
  · refine ⟨rfl, rfl, List.nodup_nil, fun n => ?_, ?_⟩
    · exact ⟨fun hn => absurd hn List.not_mem_nil, fun hn => absurd hn.1 (notMem_empty n)⟩
    · show 0 < (c.reset.books.node c.reset.rootNode).lockRef
      rw [hroot]
      exact Int.one_pos

end RadixCache

/-! ## What the changes keep -/

section
variable {b b' : Books} {live live' : Finset Nat} {path path' : Nat → List Page} {ks : List Page}
  {value : List Nat} {L last : Nat}

lemma Resplit.accounted (h : Resplit b live path b' live' path') (hb : b.Shaped live path)
    (ha : b.Accounted live) : b'.Accounted live' := by
  induction h with
  | same => exact ha
  | split h hc _ hkl _ hnk ih => exact ih.split (h.shaped hb) hc hkl hnk

lemma RadixCache.Inserted.accounted (h : Inserted b live path ks value b' live' path' L last)
    (hb : b.Shaped live path) (ha : b.Accounted live) : b'.Accounted live' := by
  cases h with
  | found hreach => exact hreach.resplit.accounted hb ha
  | grown hreach _ hang =>
    exact (hreach.resplit.accounted hb ha).hung (hreach.resplit.shaped hb) hang

lemma RadixCache.Inserted.consts (h : Inserted b live path ks value b' live' path' L last) :
    b'.pageSize = b.pageSize ∧ b'.rootNode = b.rootNode ∧ b'.isEagle = b.isEagle ∧
      b'.disable = b.disable := by
  cases h with
  | found hreach => exact hreach.resplit.consts
  | grown hreach => exact hreach.resplit.consts

/-- Where nothing is cached there is nothing to split. -/
lemma Resplit.eq_empty (h : Resplit b ∅ path b' live' path') : live' = ∅ := by
  induction h with
  | same => rfl
  | split _ hc _ _ _ _ ih =>
    grind

end

namespace RadixCache
variable {c c' : RadixCache} {live live' : Finset Nat} {path path' : Nat → List Page} {e : Event}

/-- **What a call does.** -/
inductive Moved (c : RadixCache) (live : Finset Nat) (path : Nat → List Page) :
    Event → RadixCache → Finset Nat → (Nat → List Page) → Prop
  | inserted {params : InsertParams} {c' : RadixCache} {live' : Finset Nat}
      {path' : Nat → List Page} {L last : Nat} (hdis : c.disable = false)
      (h : Inserted c.books live path ((c.treeKey params.key).pages c.pageSize)
        (c.insertValue params) c'.books live' path' L last) :
      Moved c live path (.insert params) c' live' path'
  /-- A cache that is disabled takes nothing in. -/
  | skipped {params : InsertParams} (hdis : c.disable = true) :
      Moved c live path (.insert params) c live path
  | matched {key : RadixKey} {c' : RadixCache} {live' : Finset Nat} {path' : Nat → List Page}
      (h : Resplit c.books live path c'.books live' path') :
      Moved c live path (.matchPrefix key) c' live' path'
  | locked {n : Nat} {c' : RadixCache} (hn : n = c.rootNode ∨ n ∈ live)
      (h : Relocked c.books live path n 1 c'.books) :
      Moved c live path (.incLockRef n) c' live path
  | unlocked {n : Nat} {c' : RadixCache} (hn : n = c.rootNode ∨ n ∈ live)
      (h : Relocked c.books live path n (-1) c'.books) :
      Moved c live path (.decLockRef n) c' live path
  | evicted {numTokens : Nat} {c' : RadixCache} {live' : Finset Nat} {removed : List Nat}
      (h : Evicted c.books live c'.books live' removed) :
      Moved c live path (.evict numTokens) c' live' path
  | reset : Moved c live path .reset c.reset ∅ fun _ => []

/-- **Every call succeeds.** -/
theorem step_moved (q : Heapq) (hs : SoundAt c live path) (hp : Permits c e) :
    ∃ c' live' path', step q c e = some c' ∧ Moved c live path e c' live' path' := by
  cases e with
  | insert params =>
    cases hdis : c.disable with
    | true =>
      refine ⟨c, live, path, ?_, .skipped hdis⟩
      rw [step, insert, if_pos hdis]
      rfl
    | false =>
      obtain ⟨L, last, c', live', path', hins, h⟩ := insert_spec hs.shaped hdis hp
      refine ⟨c', live', path', ?_, .inserted hdis h⟩
      rw [step, hins]
      rfl
  | matchPrefix key =>
    obtain ⟨res, c', live', path', hmatch, h, -⟩ := matchPrefix_spec hs.shaped hs.disabled key
    refine ⟨c', live', path', ?_, .matched h.resplit⟩
    rw [step, hmatch]
    rfl
  | incLockRef n =>
    have hn := (inTree_iff hs.shaped).1 hp
    obtain ⟨c', hlock, h⟩ := incLockRef_spec hs.shaped hs.disabled hn
    refine ⟨c', live, path, ?_, .locked hn h⟩
    rw [step, hlock]
    rfl
  | decLockRef n =>
    have hn := (inTree_iff hs.shaped).1 hp
    obtain ⟨c', hlock, h⟩ := decLockRef_spec hs.shaped hs.disabled hn
    refine ⟨c', live, path, ?_, .unlocked hn h⟩
    rw [step, hlock]
    rfl
  | evict numTokens =>
    obtain ⟨res, c', live', removed, hev, h, -⟩ :=
      evict_spec q hs.shaped hs.accounted hs.disabled numTokens
    refine ⟨c', live', path, ?_, .evicted h⟩
    rw [step, hev]
    rfl
  | reset => exact ⟨c.reset, ∅, _, rfl, .reset⟩

/-- **And keeps the cache sound.** -/
theorem Moved.sound (hm : Moved c live path e c' live' path') (hs : SoundAt c live path) :
    SoundAt c' live' path' := by
  cases hm with
  | inserted hdis h =>
    refine ⟨h.shaped hs.shaped, h.accounted hs.shaped hs.accounted, fun hd => ?_⟩
    exact absurd (h.consts.2.2.2.symm.trans hd) (by rw [show c.books.disable = _ from hdis]; simp)
  | skipped => exact hs
  | matched h =>
    refine ⟨h.shaped hs.shaped, h.accounted hs.shaped hs.accounted, fun hd => ?_⟩
    have hempty := hs.disabled (h.consts.2.2.2.symm.trans hd)
    subst hempty
    exact h.eq_empty
  | locked _ h =>
    exact ⟨h.same.shaped hs.shaped, h.accounted hs.accounted, fun hd =>
      hs.disabled (h.same.disable.symm.trans hd)⟩
  | unlocked _ h =>
    exact ⟨h.same.shaped hs.shaped, h.accounted hs.accounted, fun hd =>
      hs.disabled (h.same.disable.symm.trans hd)⟩
  | evicted h =>
    refine ⟨h.shaped hs.shaped, h.accounted hs.shaped hs.accounted, fun hd => ?_⟩
    have hempty := hs.disabled (h.consts.2.2.2.1.symm.trans hd)
    refine eq_empty_of_forall_notMem fun n hn => ?_
    exact absurd (hempty ▸ (h.mem_iff.1 hn).1) (notMem_empty n)
  | reset => exact soundAt_reset hs.shaped.pos

lemma Moved.consts (hm : Moved c live path e c' live' path') :
    c'.pageSize = c.pageSize ∧ c'.isEagle = c.isEagle ∧ c'.disable = c.disable := by
  cases hm with
  | inserted _ h => exact ⟨h.consts.1, h.consts.2.2.1, h.consts.2.2.2⟩
  | skipped => exact ⟨rfl, rfl, rfl⟩
  | matched h => exact ⟨h.consts.1, h.consts.2.2.1, h.consts.2.2.2⟩
  | locked _ h => exact ⟨h.same.pageSize, h.same.isEagle, h.same.disable⟩
  | unlocked _ h => exact ⟨h.same.pageSize, h.same.isEagle, h.same.disable⟩
  | evicted h => exact ⟨h.consts.1, h.consts.2.2.1, h.consts.2.2.2.1⟩
  | reset => exact ⟨rfl, rfl, rfl⟩

/-- A new cache is sound, and every run keeps it so. -/
lemma sound_of_run {q : Heapq} {disable isEagle : Bool} {pageSize : Nat}
    {strategy : EvictionStrategy} {clock : Nat → Nat} (hpos : 0 < pageSize)
    (hrun : Run (step q) Permits (init disable pageSize isEagle strategy clock) c) :
    Sound c ∧ c.pageSize = pageSize ∧ c.isEagle = isEagle ∧ c.disable = disable := by
  refine hrun.invariant (I := fun c => Sound c ∧ c.pageSize = pageSize ∧ c.isEagle = isEagle ∧
    c.disable = disable) ⟨⟨∅, _, soundAt_reset hpos⟩, rfl, rfl, rfl⟩ fun c e c' hI hp hstep => ?_
  obtain ⟨⟨live, path, hs⟩, hps, heagle, hdis⟩ := hI
  obtain ⟨c'', live', path', hstep', hm⟩ := step_moved q hs hp
  obtain rfl := Option.some_inj.1 (hstep'.symm.trans hstep)
  obtain ⟨hps', heagle', hdis'⟩ := hm.consts
  exact ⟨⟨live', path', hm.sound hs⟩, hps'.trans hps, heagle'.trans heagle, hdis'.trans hdis⟩

/-! ## A small cache -/

/-- A cache of pages of two tokens, and a disabled one. -/
def twoTokens (disable : Bool) : RadixCache := init disable 2 false .lru id

/-- Five tokens with their slots; the last fills no page. -/
def fiveTokens : InsertParams := ⟨.init [1, 2, 3, 4, 5] none false none none,
  some [10, 11, 12, 13, 14], false, none⟩

lemma fits_fiveTokens (disable : Bool) : InsertParams.Fits (twoTokens disable) fiveTokens := by
  intro value hvalue
  cases hvalue
  cases disable <;> decide

end RadixCache
end Sglang.Radix
