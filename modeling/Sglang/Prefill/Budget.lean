import Mathlib.Tactic

/-!
# The memory budget of a prefill pass

A prefill pass decides which waiting requests join the next batch before any of their memory is
allocated.  The budget keeps what has been promised so far: `totalOffset` with the tokens that the
requests may still decode, `currentOffset` without them, and `swaOffset` for the sliding-window
pool.  What is left is read off the live pools each time, so that locking a prefix counts at once.

There are two budgets.  `PrefillBudget` is over one pool (`swa = none`); `SWAPrefillBudget` is over
a full pool and a sliding-window pool with its own estimate of what a request needs
(`estimateSwaKvTokens`).  The variant with a ring of slots per request is not modelled.

Numbers of tokens are integers, as in the source, where a remainder may become negative.  The ratio
by which the tokens still to decode are weighted is a float there and a rational here.
-/

namespace Sglang.Prefill

/-! ## Whole pages -/

/-- `ceil_paged_tokens`. -/
def ceilPagedTokens (page tokens : ℤ) : ℤ := -(-tokens / page) * page

/-- `tokens // page_size * page_size`. -/
def floorPagedTokens (page tokens : ℤ) : ℤ := tokens / page * page

/-- `int(q)`: the fraction is dropped. -/
def truncate (q : ℚ) : ℤ := if 0 ≤ q then ⌊q⌋ else ⌈q⌉

section
variable {page n m : ℤ}

lemma le_ceilPagedTokens (hp : 0 < page) (n : ℤ) : n ≤ ceilPagedTokens page n := by
  have h := Int.ediv_mul_le (-n) hp.ne'
  rw [ceilPagedTokens, neg_mul]
  linarith

lemma ceilPagedTokens_lt (hp : 0 < page) (n : ℤ) : ceilPagedTokens page n < n + page := by
  have h := Int.lt_ediv_add_one_mul_self (-n) hp
  rw [ceilPagedTokens, neg_mul]
  linarith

lemma dvd_ceilPagedTokens (page n : ℤ) : page ∣ ceilPagedTokens page n := Dvd.intro_left _ rfl

section
variable (hp : 0 < page)

include hp

/-- The whole pages that hold `n` tokens are the fewest that do. -/
lemma ceilPagedTokens_le_iff (hm : page ∣ m) : ceilPagedTokens page n ≤ m ↔ n ≤ m := by
  refine ⟨(le_ceilPagedTokens hp n).trans, fun h => ?_⟩
  obtain ⟨k, rfl⟩ := hm
  have hlt := ceilPagedTokens_lt hp n
  obtain ⟨j, hj⟩ := dvd_ceilPagedTokens page n
  have : j < k + 1 := by nlinarith
  nlinarith

lemma ceilPagedTokens_mono (h : n ≤ m) : ceilPagedTokens page n ≤ ceilPagedTokens page m :=
  (ceilPagedTokens_le_iff hp (dvd_ceilPagedTokens page m)).2
    (h.trans (le_ceilPagedTokens hp m))

lemma ceilPagedTokens_of_dvd (h : page ∣ n) : ceilPagedTokens page n = n :=
  le_antisymm ((ceilPagedTokens_le_iff hp h).2 le_rfl) (le_ceilPagedTokens hp n)

@[simp] lemma ceilPagedTokens_ceilPagedTokens (n : ℤ) :
    ceilPagedTokens page (ceilPagedTokens page n) = ceilPagedTokens page n :=
  ceilPagedTokens_of_dvd hp (dvd_ceilPagedTokens page n)

lemma ceilPagedTokens_nonneg (h : 0 ≤ n) : 0 ≤ ceilPagedTokens page n :=
  h.trans (le_ceilPagedTokens hp n)

lemma floorPagedTokens_le (n : ℤ) : floorPagedTokens page n ≤ n := Int.ediv_mul_le n hp.ne'

end

lemma dvd_floorPagedTokens (page n : ℤ) : page ∣ floorPagedTokens page n := Dvd.intro_left _ rfl

/-- A multiple is at most the largest one below `n` exactly if it is at most `n`. -/
lemma le_floorPagedTokens_iff (hp : 0 < page) (hm : page ∣ m) :
    m ≤ floorPagedTokens page n ↔ m ≤ n := by
  refine ⟨fun h => h.trans (floorPagedTokens_le hp n), fun h => ?_⟩
  obtain ⟨k, rfl⟩ := hm
  rw [floorPagedTokens, mul_comm page k]
  exact Int.mul_le_mul_of_nonneg_right ((Int.le_ediv_iff_mul_le hp).2 (by linarith)) hp.le

lemma floorPagedTokens_pos_iff (hp : 0 < page) : 0 < floorPagedTokens page n ↔ page ≤ n := by
  rw [← le_floorPagedTokens_iff hp dvd_rfl]
  refine ⟨fun h => ?_, fun h => lt_of_lt_of_le hp h⟩
  exact Int.le_of_dvd h (dvd_floorPagedTokens page n)

lemma truncate_le {q : ℚ} (h : 0 ≤ q) : (truncate q : ℚ) ≤ q := by
  rw [truncate, if_pos h]
  exact Int.floor_le q

/-- A whole number below a non-negative number survives the truncation. -/
lemma le_truncate {q : ℚ} (h : 0 ≤ q) (hn : (n : ℚ) ≤ q) : n ≤ truncate q := by
  rw [truncate, if_pos h]
  exact Int.le_floor.2 hn

end

/-! ## What a request needs of the sliding-window pool -/

/-- The tokens that a window keeps of a request, with the tail of the chunk that is allocated before
the window moves on. -/
def windowTokens (extendInputLen maxNewTokens page : ℤ) (allocationLimit : Option ℤ)
    (window : ℤ) : ℤ :=
  let allocated := match allocationLimit with
    | none => extendInputLen
    | some limit => min extendInputLen limit
  max (allocated - window) 0 + min (extendInputLen + maxNewTokens) window + page

/-- `estimate_swa_kv_tokens`: the largest number of sliding-window tokens that a request holds. -/
def estimateSwaKvTokens (extendInputLen maxNewTokens : ℤ) (slidingWindowSize : Option ℤ)
    (page : ℤ) (allocationLimit : Option ℤ) (hostHitLength : ℤ) : ℤ :=
  let reserved := match slidingWindowSize with
    | none => extendInputLen + maxNewTokens + page
    | some window =>
      if window ≤ 0 then extendInputLen + maxNewTokens + page
      else windowTokens extendInputLen maxNewTokens page allocationLimit window
  if 0 < hostHitLength then reserved + ceilPagedTokens page hostHitLength else reserved

/-! ## The pools and the budget -/

/-- What the allocator and the prefix cache report: the free tokens of the two pools, and the
tokens of cached prefixes that nobody locks. -/
structure Pools where
  fullAvailable : ℤ
  fullEvictable : ℤ
  swaAvailable : ℤ
  swaEvictable : ℤ
  deriving DecidableEq, Repr

/-- The constants of the sliding-window pool; `allSwa` says that there is no other pool. -/
structure SwaPool where
  sizeSwa : ℤ
  slidingWindowSize : Option ℤ
  allSwa : Bool
  deriving DecidableEq, Repr

/-- The shape of the memory: the page size, and the sliding-window pool if there is one. -/
structure Memory where
  pageSize : ℕ
  swa : Option SwaPool
  page_pos : 0 < pageSize
  deriving DecidableEq

/-- A budget: the pools as they are now, and what has been promised. -/
structure Budget where
  pools : Pools
  totalOffset : ℚ
  currentOffset : ℤ
  swaOffset : ℤ
  deriving DecidableEq

namespace Memory
variable (m : Memory)

/-- `ceil_paged_tokens` at the page size of the pool. -/
def ceil (tokens : ℤ) : ℤ := ceilPagedTokens m.pageSize tokens

/-- `_available_and_evictable`. -/
def availableAndEvictable (p : Pools) : ℤ :=
  match m.swa with
  | some ⟨_, _, true⟩ => p.swaAvailable + p.swaEvictable
  | _ => p.fullAvailable + p.fullEvictable

variable (b : Budget)

/-- `remaining_total`. -/
def remainingTotal : ℚ := m.availableAndEvictable b.pools - b.totalOffset

/-- `remaining_current`. -/
def remainingCurrent : ℤ := m.availableAndEvictable b.pools - b.currentOffset

/-- `remaining_swa`. -/
def remainingSwa : ℤ :=
  match m.swa with
  | none => 0
  | some _ => b.pools.swaAvailable + b.pools.swaEvictable - b.swaOffset

/-- `has_capacity`. -/
def hasCapacity : Bool :=
  decide (0 < m.remainingTotal b) && decide (0 < m.remainingCurrent b) &&
    match m.swa with
    | none => true
    | some _ => decide (0 < m.remainingSwa b)

/-- `swa_tokens`. -/
def swaTokens (w : SwaPool) (extendInputLen maxNewTokens : ℤ) (chunkLimit : Option ℤ)
    (swaHostHitLength : ℤ) : ℤ :=
  estimateSwaKvTokens extendInputLen maxNewTokens w.slidingWindowSize m.pageSize chunkLimit
    swaHostHitLength

/-- `_chunk_cap`: the largest chunk of whole pages that leaves room for what the request needs
besides it. -/
def chunkCap (w : SwaPool) (b : Budget) (maxNewTokens swaHostHitLength : ℤ) : ℤ :=
  let headroom := m.swaTokens w 0 maxNewTokens none swaHostHitLength
  max 0 (floorPagedTokens m.pageSize (m.remainingSwa b - headroom))

/-- `check_prefill`: whether the request may join, and a bound on its chunk. -/
def checkPrefill (extendInputLen totalTokens maxNewTokens swaHostHitLength : ℤ)
    (chunkLimit : Option ℤ) : Bool × Option ℤ :=
  if m.remainingTotal b ≤ totalTokens then (false, none)
  else match m.swa with
    | none => (true, chunkLimit)
    | some w =>
      let needed := m.swaTokens w (m.ceil extendInputLen) maxNewTokens chunkLimit swaHostHitLength
      if needed < m.remainingSwa b then (true, chunkLimit)
      else
        -- only a request that the empty pool could not hold either gets a smaller chunk
        let cap := if w.sizeSwa ≤ needed then m.chunkCap w b maxNewTokens swaHostHitLength else 0
        match chunkLimit with
        | none => (false, none)
        | some limit => if cap ≤ 0 then (false, none) else (true, some (min limit cap))

/-- `can_allocate_prefill`. -/
def canAllocatePrefill (pagedInput extendInputLen maxNewTokens : ℤ)
    (chunkLimit : Option ℤ) : Bool :=
  decide ((pagedInput : ℚ) ≤ min (m.remainingCurrent b : ℚ) (m.remainingTotal b)) &&
    match m.swa with
    | none => true
    | some w => decide (m.swaTokens w extendInputLen maxNewTokens chunkLimit 0 ≤ m.remainingSwa b)

/-- `available_chunk_tokens`: how far a request that is being prefilled may go on. -/
def availableChunkTokens (chunkLimit : ℤ) : Option ℤ :=
  let available := min chunkLimit (truncate (m.remainingTotal b))
  match m.swa with
  | none => some (if 0 < available then available else chunkLimit)
  | some _ =>
    let available := min available (m.remainingSwa b - m.pageSize)
    if 0 < available then some available else none

/-- The bound that `add_chunked_req` adds: a page of the sliding-window pool is left. -/
def boundBySwa (tokens : ℤ) : ℤ :=
  match m.swa with
  | none => tokens
  | some _ => min tokens (m.remainingSwa b - m.pageSize)

/-- `reserve`. -/
def reserve (extendInputLen maxNewTokens : ℤ) (chunkLimit : Option ℤ) : Budget :=
  let immediate := m.ceil extendInputLen + m.pageSize
  { b with
    totalOffset := b.totalOffset + (immediate + maxNewTokens)
    currentOffset := b.currentOffset + immediate
    swaOffset := match m.swa with
      | none => b.swaOffset
      | some w => b.swaOffset + m.swaTokens w (m.ceil extendInputLen) maxNewTokens chunkLimit 0 }

end Memory

end Sglang.Prefill
