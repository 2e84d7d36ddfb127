import Sglang.Radix.Runs

/-!
# The cache as a map from prefixes to slots

What a radix cache represents is a partial map: from a namespace and a sequence of units that fills
whole pages to the slots of its last page (`RadixCache.prefixMap`).  `match_prefix` reads the
longest prefix of a key off it, `insert` extends it, and how the tree is cut into nodes does not
show.

* `matchesMap` and `extendsMap`: one lookup and one insert, against the map.
* `refines_prefixMap`: in every state of every run a lookup returns the slots of the longest prefix
  that is in the map and leaves the map as it is, and an insert adds exactly the longer prefixes.
* `disabled_insert_adds_nothing`: an insert into a disabled cache does not.
-/

namespace Sglang.Radix
open Lib List

namespace RadixCache

/-- **The map a cache stands for.** -/
def prefixMap (c : RadixCache) (extraKey cacheSalt : Option String) (us : List KeyUnit)
    (slots : List Nat) : Prop :=
  us.length % c.pageSize = 0 ∧ c.Cached ((chunks c.pageSize us).map (Page.mk extraKey cacheSalt)) slots

/-- The units of the first `n` pages of a key, as the cache sees it. -/
def unitPrefix (c : RadixCache) (key : RadixKey) (n : Nat) : List KeyUnit :=
  (c.treeKey key).units.take (n * c.pageSize)

/-- Page `i` of some slots. -/
def pageOf (c : RadixCache) (slots : List Nat) (i : Nat) : List Nat :=
  (slots.drop (i * c.pageSize)).take c.pageSize

/-- The first `L` pages of a key are the longest prefix of it that is in the map. -/
structure Longest (c : RadixCache) (key : RadixKey) (L : Nat) : Prop where
  le : L * c.pageSize ≤ (c.treeKey key).len
  cached : ∀ i < L, ∃ slots, c.prefixMap key.extraKey key.cacheSalt (c.unitPrefix key (i + 1)) slots
  next : (L + 1) * c.pageSize ≤ (c.treeKey key).len → ∀ slots,
    ¬ c.prefixMap key.extraKey key.cacheSalt (c.unitPrefix key (L + 1)) slots

/-- The two caches stand for the same map. -/
def SameMap (c c' : RadixCache) : Prop :=
  ∀ extraKey cacheSalt us slots,
    c'.prefixMap extraKey cacheSalt us slots ↔ c.prefixMap extraKey cacheSalt us slots

/-- `match_prefix` returns the slots of the longest prefix, and leaves the map as it is. -/
structure MatchesMap (c : RadixCache) (key : RadixKey) (res : MatchResult) (c' : RadixCache)
    (L : Nat) : Prop where
  longest : c.Longest key L
  length : res.deviceIndices.length = L * c.pageSize
  slots : ∀ i < L, c.prefixMap key.extraKey key.cacheSalt (c.unitPrefix key (i + 1))
    (c.pageOf res.deviceIndices i)
  same : SameMap c c'

/-- `insert` returns the length of the longest prefix, and adds the longer ones. -/
structure ExtendsMap (c : RadixCache) (params : InsertParams) (res : InsertResult)
    (c' : RadixCache) (L : Nat) : Prop where
  longest : c.Longest params.key L
  prefixLen : res.prefixLen = L * c.pageSize
  extended : ∀ extraKey cacheSalt us slots, c'.prefixMap extraKey cacheSalt us slots ↔
    c.prefixMap extraKey cacheSalt us slots ∨
      extraKey = params.key.extraKey ∧ cacheSalt = params.key.cacheSalt ∧
        ∃ j, L ≤ j ∧ (j + 1) * c.pageSize ≤ (c.treeKey params.key).len ∧
          us = c.unitPrefix params.key (j + 1) ∧ slots = c.pageOf (c.insertValue params) j

variable {c c' : RadixCache} {live live' : Finset Nat} {path path' : Nat → List Page}
  {key : RadixKey} {us : List KeyUnit} {slots : List Nat}

/-! ## Prefixes as pages -/

/-- The view as pairs does not change the namespace of a key. -/
lemma treeKey_space (c : RadixCache) (key : RadixKey) :
    (c.treeKey key).extraKey = key.extraKey ∧ (c.treeKey key).cacheSalt = key.cacheSalt := by
  rw [treeKey, RadixKey.maybeToBigramView]
  split <;> exact ⟨rfl, rfl⟩

lemma lt_pages_iff (hpos : 0 < c.pageSize) {i : Nat} :
    i < ((c.treeKey key).pages c.pageSize).length ↔ (i + 1) * c.pageSize ≤ (c.treeKey key).len := by
  rw [RadixKey.length_pages]
  exact Nat.le_div_iff_mul_le hpos

lemma pages_take_eq (hpos : 0 < c.pageSize) (n : Nat) :
    ((c.treeKey key).pages c.pageSize).take n =
      (chunks c.pageSize (c.unitPrefix key n)).map (Page.mk key.extraKey key.cacheSalt) := by
  grind [RadixKey.pages, treeKey_space, unitPrefix, chunks_take, map_take]

variable {n : Nat}

lemma length_unitPrefix (hn : n * c.pageSize ≤ (c.treeKey key).len) :
    (c.unitPrefix key n).length = n * c.pageSize := by
  rw [unitPrefix, length_take, RadixKey.length_units, min_eq_left hn]

/-- A prefix of whole pages is in the map when its pages are cached. -/
lemma prefixMap_iff (h : c.books.Shaped live path) (hn : n * c.pageSize ≤ (c.treeKey key).len) :
    c.prefixMap key.extraKey key.cacheSalt (c.unitPrefix key n) slots ↔
      c.books.Caches live path (((c.treeKey key).pages c.pageSize).take n) slots := by
  simp [length_unitPrefix hn, prefixMap, cached_iff h, pages_take_eq h.pos]

/-- Caches with the same cached prefixes are the same map. -/
lemma sameMap_of_caches (h : c.books.Shaped live path) (h' : c'.books.Shaped live' path')
    (hps : c'.pageSize = c.pageSize)
    (heq : ∀ p slots, c'.books.Caches live' path' p slots ↔ c.books.Caches live path p slots) :
    SameMap c c' := by
  intro extraKey cacheSalt us slots
  rw [prefixMap, prefixMap, cached_iff h, cached_iff h', hps, heq]

lemma pages_eq_iff (hpos : 0 < c.pageSize) {extraKey cacheSalt : Option String}
    (hus : us.length % c.pageSize = 0) (hn : (n + 1) * c.pageSize ≤ (c.treeKey key).len) :
    (chunks c.pageSize us).map (Page.mk extraKey cacheSalt) =
        ((c.treeKey key).pages c.pageSize).take (n + 1) ↔
      extraKey = key.extraKey ∧ cacheSalt = key.cacheSalt ∧ us = c.unitPrefix key (n + 1) := by
  constructor
  · intro heq
    rw [pages_take_eq hpos] at heq
    have hunits := congrArg (List.map Page.units) heq
    simp only [map_map] at hunits
    rw [show Page.units ∘ Page.mk extraKey cacheSalt = id from rfl,
      show Page.units ∘ Page.mk key.extraKey key.cacheSalt = id from rfl, map_id,
      map_id] at hunits
    have hflat : us = c.unitPrefix key (n + 1) := by
      rw [← flatten_chunks hpos (Nat.div_mul_cancel (Nat.dvd_of_mod_eq_zero hus)).symm, hunits,
        flatten_chunks hpos (length_unitPrefix hn)]
    rw [hunits] at heq
    have hlen : 0 < (chunks c.pageSize (c.unitPrefix key (n + 1))).length := by
      rw [length_chunks, length_unitPrefix hn, Nat.mul_div_cancel _ hpos]
      exact Nat.succ_pos n
    obtain ⟨pg, rest, hpg⟩ := exists_cons_of_length_pos hlen
    rw [hpg, map_cons, map_cons, List.cons.injEq, Page.mk.injEq] at heq
    exact ⟨heq.1.1, heq.1.2.1, hflat⟩
  · grind [pages_take_eq]

/-! ## The operations on the map -/

variable {params : InsertParams}

/-- A lookup in a sound cache is a lookup of the longest prefix in the map. -/
lemma matchesMap (hs : SoundAt c live path) (key : RadixKey) :
    ∃ res c' L, c.matchPrefix key = .ok (res, c') ∧ MatchesMap c key res c' L := by
  obtain ⟨res, c', live', path', hmatch, hreach, hfetch⟩ :=
    matchPrefix_spec hs.shaped hs.disabled key
  have hpos := hs.shaped.pos
  have hlt : ∀ {i}, i < (path' res.lastDeviceNode).length →
      (i + 1) * c.pageSize ≤ (c.treeKey key).len := fun hi =>
    (lt_pages_iff hpos).1 (lt_of_lt_of_le hi hreach.isPrefix.length_le)
  have hslots : ∀ i < (path' res.lastDeviceNode).length,
      c.prefixMap key.extraKey key.cacheSalt (c.unitPrefix key (i + 1))
        (c.pageOf res.deviceIndices i) := fun i hi => by
    have hcache := hfetch.slots i hi
    rw [prefix_iff_eq_take.1 hreach.isPrefix, take_take, min_eq_left hi] at hcache
    exact (prefixMap_iff hs.shaped (hlt hi)).2 hcache
  refine ⟨res, c', _, hmatch, ⟨?_, fun i hi => ⟨_, hslots i hi⟩, fun hle slots hmap => ?_⟩,
    hfetch.length, hslots, ?_⟩
  · refine le_trans (Nat.mul_le_mul_right _ hreach.isPrefix.length_le) ?_
    rw [RadixKey.length_pages]
    exact Nat.div_mul_le_self _ _
  · exact hreach.longest ((lt_pages_iff hpos).2 hle) slots ((prefixMap_iff hs.shaped hle).1 hmap)
  · exact sameMap_of_caches hs.shaped (hreach.resplit.shaped hs.shaped) hreach.resplit.consts.1
      fun p slots => hreach.resplit.caches hs.shaped

/-- An insert into a sound cache adds to the map what it did not have. -/
lemma extendsMap (hs : SoundAt c live path) (hdis : c.disable = false)
    (hfits : InsertParams.Fits c params) :
    ∃ res c' L, c.insert params = .ok (res, c') ∧ ExtendsMap c params res c' L := by
  obtain ⟨L, last, c', live', path', hinsert, hins⟩ := insert_spec hs.shaped hdis hfits
  have hpos : 0 < c.pageSize := hs.shaped.pos
  have hle : L * c.pageSize ≤ (c.treeKey params.key).len := by
    refine le_trans (Nat.mul_le_mul_right _ hins.le) ?_
    rw [RadixKey.length_pages]
    exact Nat.div_mul_le_self _ _
  refine ⟨_, c', L, hinsert, ⟨hle, fun i hi => ?_, fun hnext slots hmap => ?_⟩, rfl, ?_⟩
  · obtain ⟨slots, hcache⟩ := hins.cached hs.shaped hi
    have hi' : (i + 1) * c.pageSize ≤ (c.treeKey params.key).len :=
      le_trans (Nat.mul_le_mul_right _ hi) hle
    exact ⟨slots, (prefixMap_iff hs.shaped hi').2 hcache⟩
  · exact hins.longest ((lt_pages_iff hpos).2 hnext) slots ((prefixMap_iff hs.shaped hnext).1 hmap)
  · intro extraKey cacheSalt us slots
    have hps : c'.pageSize = c.pageSize := hins.consts.1
    rw [prefixMap, prefixMap, cached_iff hs.shaped, cached_iff (hins.shaped hs.shaped), hps,
      hins.caches hs.shaped, and_or_left]
    refine or_congr_right ?_
    -- Page `j` of the value is there for each page of the key.
    have hvalue : ∀ {j}, j < ((c.treeKey params.key).pages c.pageSize).length →
        (chunks c.pageSize (c.insertValue params))[j]? =
          some (c.pageOf (c.insertValue params) j) := fun {j} hj => by
      refine getElem?_chunks ?_
      rwa [length_insertValue hfits, len_pageAligned, Nat.mul_div_cancel _ hpos,
        pages_pageAligned hpos]
    constructor
    · rintro ⟨hmod, j, hLj, hj, heq, hslots⟩
      have hlen := (lt_pages_iff hpos).1 hj
      obtain ⟨rfl, rfl, rfl⟩ := (pages_eq_iff hpos hmod hlen).1 heq
      exact ⟨rfl, rfl, j, hLj, hlen, rfl, Option.some_inj.1 (hslots.symm.trans (hvalue hj))⟩
    · rintro ⟨rfl, rfl, j, hLj, hlen, rfl, rfl⟩
      have hj := (lt_pages_iff hpos).2 hlen
      have hmod : (c.unitPrefix params.key (j + 1)).length % c.pageSize = 0 := by
        rw [length_unitPrefix hlen, Nat.mul_mod_left]
      exact ⟨hmod, j, hLj, hj, (pages_eq_iff hpos hmod hlen).2 ⟨rfl, rfl, rfl⟩, hvalue hj⟩

/-- **A radix cache refines a map from prefixes to slots.**  In every state of every run,
`match_prefix` returns the slots of the longest prefix of the key that is in the map and leaves the
map as it is; `insert` returns the length of the longest prefix and adds exactly the longer ones,
unless the cache is disabled, when it answers 0 and adds nothing; and all that leads to a node is
under the node's own namespace. -/
theorem refines_prefixMap {q : Heapq} {disable isEagle : Bool} {pageSize : Nat}
    {strategy : EvictionStrategy} {clock : Nat → Nat} (hpos : 0 < pageSize) {c : RadixCache}
    (hrun : Run (step q) Permits (init disable pageSize isEagle strategy clock) c) :
    (∀ extraKey cacheSalt us slots slots', c.prefixMap extraKey cacheSalt us slots →
      c.prefixMap extraKey cacheSalt us slots' → slots = slots') ∧
    (∀ key, ∃ res c' L, c.matchPrefix key = .ok (res, c') ∧ MatchesMap c key res c' L) ∧
    (disable = false → ∀ params, InsertParams.Fits c params →
      ∃ res c' L, c.insert params = .ok (res, c') ∧ ExtendsMap c params res c' L) ∧
    (disable = true → (∀ params, c.insert params = .ok (⟨0, none⟩, c)) ∧
      ∀ extraKey cacheSalt us slots, ¬ c.prefixMap extraKey cacheSalt us slots) ∧
    ∀ n p, c.Leads n p → ∀ pg ∈ p, pg.extraKey = (c.heap n).key.extraKey ∧
      pg.cacheSalt = (c.heap n).key.cacheSalt := by
  obtain ⟨⟨live, path, hs⟩, -, -, hdis⟩ := sound_of_run hpos hrun
  refine ⟨?_, matchesMap hs, fun hd params => extendsMap hs (hdis.trans hd), fun hd => ⟨?_, ?_⟩, ?_⟩
  · intro extraKey cacheSalt us slots slots' hmap hmap'
    exact hs.shaped.trie.maps_unique ((cached_iff hs.shaped).1 hmap.2)
      ((cached_iff hs.shaped).1 hmap'.2)
  · simp [insert, if_pos (hdis.trans hd)]
  · intro extraKey cacheSalt us slots hmap
    obtain ⟨n, hn, -⟩ := (cached_iff hs.shaped).1 hmap.2
    rw [hs.disabled (hdis.trans hd)] at hn
    exact Finset.notMem_empty n hn
  · intro n p hlead pg hpg
    obtain ⟨hn, rfl⟩ := (leads_iff hs.shaped).1 hlead
    have hmem := hs.shaped.trie.mem_of_path_ne_nil hn (ne_nil_of_mem hpg)
    exact hs.shaped.space hmem pg hpg

/-! ## A run -/

/-- After one insertion, a key that leaves the inserted one in its second page. -/
theorem refines_after_insert : ∃ c,
    Run (step .least) Permits (twoTokens false) c ∧
    (c.matchPrefix (.init [1, 2, 3, 7] none false none none)).toOption.map
      (fun r => r.1.deviceIndices) = some [10, 11] ∧
    ∀ key, ∃ res c' L, c.matchPrefix key = .ok (res, c') ∧ MatchesMap c key res c' L := by
  obtain ⟨c, hstep, hmatch⟩ := (Option.any_eq_true _ _).1
    (by decide +kernel : (step .least (twoTokens false) (.insert fiveTokens)).any (fun c =>
      (c.matchPrefix (.init [1, 2, 3, 7] none false none none)).toOption.map
        (fun r => r.1.deviceIndices) = some [10, 11]) = true)
  have hrun : Run (step .least) Permits (twoTokens false) c :=
    Run.start.next (e := .insert fiveTokens) (fits_fiveTokens false) hstep
  exact ⟨c, hrun, of_decide_eq_true hmatch, (refines_prefixMap (by decide) hrun).2.1⟩

/-- A disabled cache takes an insertion and adds nothing. -/
theorem disabled_insert_adds_nothing : ∃ res c',
    Run (step .least) Permits (twoTokens true) (twoTokens true) ∧
    InsertParams.Fits (twoTokens true) fiveTokens ∧
    (twoTokens true).insert fiveTokens = .ok (res, c') ∧
    ¬ ∃ L, ExtendsMap (twoTokens true) fiveTokens res c' L := by
  have hs : SoundAt (twoTokens true) ∅ fun _ => [] := soundAt_reset Nat.two_pos
  have hempty : ∀ extraKey cacheSalt us slots,
      ¬ (twoTokens true).prefixMap extraKey cacheSalt us slots := fun _ _ _ _ hmap => by
    obtain ⟨n, hn, -⟩ := (cached_iff hs.shaped).1 hmap.2
    exact Finset.notMem_empty n hn
  refine ⟨⟨0, none⟩, twoTokens true, .start, fits_fiveTokens true, rfl, ?_⟩
  rintro ⟨L, ⟨-, hcached, -⟩, -, hext⟩
  obtain rfl : L = 0 := by
    refine Nat.eq_zero_of_not_pos fun hL => ?_
    obtain ⟨slots, hmap⟩ := hcached 0 hL
    exact hempty _ _ _ _ hmap
  exact hempty _ _ _ _ ((hext none none _ _).2 (.inr ⟨rfl, rfl, 0, le_refl 0, by decide, rfl, rfl⟩))

end RadixCache
end Sglang.Radix
