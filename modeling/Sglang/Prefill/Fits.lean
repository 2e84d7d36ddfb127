import Sglang.Alloc.Pool
import Sglang.Prefill.Admission

/-!
# An admitted batch fits in memory

At the end of a pass the batch is allocated: `alloc_extend` takes the pages that the extend ranges
reach into beyond the cached prefixes, in the full pool and, where there is one, in the
sliding-window pool.  `Fits` says that both pools have them, counting what eviction can free.

The adder compares tokens and the allocator takes whole pages, so that an admission could overshoot
by almost a page; what makes up for it is the page that each comparison adds, or that the pool
consists of whole pages.  `Reserved` is the invariant: the pages of the batch are covered by the
offsets, and are there.

The offset has to start from something non-negative for that.  The share of a running request is
`min(max_new_tokens - len(output_ids), CLIP) * new_token_ratio`, without a lower bound, and a
request that has produced more tokens than it was asked for makes it negative
(`overshoot_overcommits`).
-/

namespace Sglang.Prefill
open Lib Option Adder Memory

variable {c : Config} {s s' : Adder} {req : Req}

/-! ## What the batch needs -/

/-- The request as `alloc_extend` sees it. -/
def Admitted.extendReq (a : Admitted) : Alloc.ExtendReq :=
  ⟨a.start.toNat, max a.start.toNat a.stop.toNat, none, le_max_left _ _⟩

/-- The tokens of the pages that a request needs. -/
def Admitted.pageTokens (page : ℕ) (a : Admitted) : ℕ := a.extendReq.newPages page * page

/-- The tokens of the pages that `alloc_extend` needs for the batch. -/
def Adder.neededTokens (c : Config) (s : Adder) : ℕ :=
  Alloc.getNumNewPages c.memory.pageSize (s.canRunList.map Admitted.extendReq) * c.memory.pageSize

/-- The batch can be allocated in every pool there is. -/
def Adder.Fits (c : Config) (s : Adder) : Prop :=
  (s.neededTokens c : ℤ) ≤ c.memory.availableAndEvictable s.budget.pools ∧
    (c.memory.swa.isSome → (s.neededTokens c : ℤ) ≤
      s.budget.pools.swaAvailable + s.budget.pools.swaEvictable)

instance (c : Config) (s : Adder) : Decidable (s.Fits c) :=
  inferInstanceAs (Decidable (_ ∧ (_ → _)))

/-- New pages after a prefix are no more than the pages of the new tokens alone. -/
lemma pageTokens_le {page : ℕ} (hp : 0 < page) (req : Req) (n : ℕ) (e : ℤ) :
    ((⟨req, n, n + e⟩ : Admitted).pageTokens page : ℤ) ≤ ceilPagedTokens page (max e 0) := by
  have hp' : (0 : ℤ) < page := by exact_mod_cast hp
  obtain ⟨k, hk⟩ := dvd_ceilPagedTokens (page : ℤ) (max e 0)
  have hmax := le_ceilPagedTokens hp' (max e 0)
  have hk0 : 0 ≤ k := by
    simp_all
  obtain ⟨j, rfl⟩ := Int.eq_ofNat_of_zero_le hk0
  have hseq : max n (n + e).toNat ≤ page * (pages page n + j) := by
    have hn := le_mul_pages hp n
    have htoNat : (n + e).toNat ≤ n + page * j := by
      omega
    rw [mul_add]
    exact max_le (le_trans hn (Nat.le_add_right _ _)) (htoNat.trans (by omega))
  have hpages : pages page (max n (n + e).toNat) - pages page n ≤ j :=
    Nat.sub_le_iff_le_add'.2 ((pages_le_iff hp).2 hseq)
  rw [hk, Admitted.pageTokens, Alloc.ExtendReq.newPages, Admitted.extendReq]
  dsimp only
  rw [Int.toNat_natCast, mul_comm (page : ℤ)]
  exact_mod_cast Nat.mul_le_mul_right page hpages

lemma neededTokens_joined {n : ℕ} {e maxNew : ℤ} (h : Joined c s req n e maxNew s') :
    (s'.neededTokens c : ℤ) ≤ s.neededTokens c + c.memory.ceil (max e 0) := by
  have hle := pageTokens_le c.memory.page_pos req n e
  rw [neededTokens, neededTokens, Alloc.getNumNewPages, Alloc.getNumNewPages,
    h.canRunList, List.map_append, List.map_append, List.sum_append, add_mul]
  rw [Admitted.pageTokens] at hle
  push_cast
  simpa [ceil] using hle

lemma neededTokens_tracked (c : Config) (s : Adder) (req : Req) :
    (s.tracked c req).neededTokens c = s.neededTokens c := rfl

/-! ## The invariant -/

/-- The chunk budget is not used up. -/
def Adder.Live (s : Adder) : Prop := ∀ rem, s.remChunkTokens = some rem → 0 < rem

/-- The batch fits, and while more requests can join, the offsets cover it. -/
structure Reserved (c : Config) (s : Adder) : Prop where
  fits : s.Fits c
  total : s.Live → (s.neededTokens c : ℚ) ≤ s.budget.totalOffset
  swa : s.Live → c.memory.swa.isSome → (s.neededTokens c : ℤ) ≤ s.budget.swaOffset

/-- A request that joins with tokens that are there keeps the invariant. -/
lemma Reserved.join (h : Reserved c s) {q : Pools} {n : ℕ} {e maxNew : ℤ}
    (hj : Joined c (s.withPools q) req n e maxNew s') (hmax : 0 ≤ maxNew)
    (hrem : ∀ rem, s.remChunkTokens = some rem → e ≤ rem)
    (hpos : 0 ≤ e ∨ ¬ s'.Live)
    (hfull : (s.neededTokens c : ℤ) + c.memory.ceil (max e 0) ≤ c.memory.availableAndEvictable q)
    (hswa : c.memory.swa.isSome →
      (s.neededTokens c : ℤ) + c.memory.ceil (max e 0) ≤ q.swaAvailable + q.swaEvictable) :
    Reserved c s' := by
  have hneed : (s'.neededTokens c : ℤ) ≤
      (s.withPools q).neededTokens c + c.memory.ceil (max e 0) := neededTokens_joined hj
  change (s'.neededTokens c) ≤ s.neededTokens c + c.memory.ceil (max e 0) at hneed
  have hpools : s'.budget.pools = q := by
    rw [hj.budget]
    rfl
  -- a chunk budget that is left over afterwards was there before
  have hlive : s'.Live → 0 ≤ e ∧ s.Live := by
    intro hl
    have he := hpos.resolve_right (not_not_intro hl)
    refine ⟨he, fun rem hr => ?_⟩
    obtain ⟨charge, hle, heq⟩ := hj.remChunkTokens
    have := hl (rem - charge) (by rw [heq, withPools, hr, map_some])
    linarith
  refine ⟨⟨?_, fun hw => ?_⟩, fun hl => ?_, fun hl hw => ?_⟩
  · grind
  · grind
  · obtain ⟨he, hl⟩ := hlive hl
    have htotal := h.total hl
    rw [max_eq_left he] at hneed
    have hneed' : (s'.neededTokens c : ℚ) ≤ s.neededTokens c + c.memory.ceil e := by
      exact_mod_cast hneed
    have hmax' : (0 : ℚ) ≤ maxNew := by exact_mod_cast hmax
    rw [hj.budget, reserve, c.memory.ceil_ceil]
    dsimp only [withPools]
    push_cast
    linarith
  · obtain ⟨he, hl⟩ := hlive hl
    obtain ⟨w, hw'⟩ := isSome_iff_exists.1 hw
    have hswa := h.swa hl hw
    rw [max_eq_left he] at hneed
    have hest := c.memory.le_swaTokens w 0 (c.memory.le_ceil e) hrem hmax
    have hlt := c.memory.ceil_lt e
    rw [c.memory.hostTokens_zero] at hest
    rw [hj.budget, reserve, hw', c.memory.ceil_ceil]
    dsimp only [withPools]
    linarith

/-! ## A request in the middle of its prefill -/

/-- A chunk of `n` tokens is within the chunk budget `rem` and within what is left of the pools,
unless the budget was used up before; then the chunk is no chunk. -/
def ChunkRoom (c : Config) (s : Adder) (rem n : ℤ) : Prop :=
  0 < n ∧ n ≤ rem ∧ n ≤ truncate (c.memory.remainingTotal s.budget) ∧
      (c.memory.swa.isSome → n + c.memory.pageSize ≤ c.memory.remainingSwa s.budget) ∨
    rem ≤ 0 ∧ n = rem

variable {n rem : ℤ}

lemma ChunkRoom.le (h : ChunkRoom c s rem n) : n ≤ rem := by
  rcases h with ⟨-, hle, -⟩ | ⟨-, rfl⟩
  · exact hle
  · exact le_rfl

lemma ChunkRoom.min {x : ℤ} (h : ChunkRoom c s rem n) (hx : 0 < x) :
    ChunkRoom c s rem (min n x) := by
  have hmin := min_le_left n x
  rcases h with ⟨hpos, hle, htotal, hswa⟩ | ⟨hle, rfl⟩
  · exact .inl ⟨lt_min hpos hx, hmin.trans hle, hmin.trans htotal, fun hw => by linarith [hswa hw]⟩
  · exact .inr ⟨hle, min_eq_left (by linarith)⟩

lemma chunkRoom_of_availableChunkTokens
    (hroom : 0 < truncate (c.memory.remainingTotal s.budget))
    (h : c.memory.availableChunkTokens s.budget rem = some n) : ChunkRoom c s rem n := by
  rw [availableChunkTokens] at h
  have hl := min_le_left rem (truncate (c.memory.remainingTotal s.budget))
  have hr := min_le_right rem (truncate (c.memory.remainingTotal s.budget))
  cases hw : c.memory.swa with
  | none =>
    simp only [hw, some_inj] at h
    split at h
    · subst h
      exact .inl ⟨‹_›, hl, hr, fun hsome => by simp [hw] at hsome⟩
    · subst h
      rename_i hnot
      refine .inr ⟨?_, rfl⟩
      by_contra hrem
      exact hnot (lt_min (not_le.1 hrem) hroom)
  | some w =>
    simp only [hw] at h
    split at h
    · cases h
      refine .inl ⟨‹_›, (min_le_left _ _).trans hl, (min_le_left _ _).trans hr, fun _ => ?_⟩
      have := min_le_right (min rem (truncate (c.memory.remainingTotal s.budget)))
        (c.memory.remainingSwa s.budget - c.memory.pageSize)
      linarith
    · cases h

/-- The chunk is already below what the sliding-window pool has left. -/
lemma boundBySwa_of_availableChunkTokens
    (h : c.memory.availableChunkTokens s.budget rem = some n) :
    c.memory.boundBySwa s.budget n = n := by
  grind [availableChunkTokens, boundBySwa]

variable {limit : Option ℤ}

lemma addChunkedReq_cases {r : Option Req}
    (hroom : 0 < truncate (c.memory.remainingTotal s.budget))
    (h : s.addChunkedReq c req limit = .ok (r, s')) :
    s' = s ∨ ∃ rem e maxNew, s.remChunkTokens = some rem ∧ 0 ≤ maxNew ∧ ChunkRoom c s rem e ∧
      Joined c s req req.prefixLen e maxNew s' := by
  have hjoin : ∀ {rem n}, s.remChunkTokens = some rem → ChunkRoom c s rem n →
      s.continueChunk c req n = (r, s') →
      ∃ rem e maxNew, s.remChunkTokens = some rem ∧ 0 ≤ maxNew ∧ ChunkRoom c s rem e ∧
        Joined c s req req.prefixLen e maxNew s' := by
    intro rem n hrem hn heq
    obtain ⟨maxNew, hmax, hj⟩ := continueChunk_joined c s req n
    rw [heq, min_comm] at hj
    exact ⟨rem, _, maxNew, hrem, hmax, hn.min req.candExtendInputLen_pos, hj⟩
  rw [addChunkedReq] at h
  cases hrem : s.remChunkTokens with
  | none =>
    grind
  | some rem =>
    simp only [hrem] at h hjoin
    cases hav : c.memory.availableChunkTokens s.budget rem with
    | none =>
      grind
    | some available =>
      right
      have hchunk := chunkRoom_of_availableChunkTokens hroom hav
      simp only [hav, boundBySwa_of_availableChunkTokens hav] at h
      cases limit with
      | none =>
        grind
      | some l =>
        dsimp only at h
        split at h
        · cases h
        · simp only [Except.ok.injEq] at h
          exact hjoin rfl (hchunk.min (not_le.1 ‹_›)) h

/-! ## A new request -/

/-- The load-back either brings in the whole host prefix and takes at most its tokens, or it brings
in nothing and takes nothing. -/
def AllOrNothing (c : Config) (s : Adder) (req : Req) (a : Answers) (lb : LoadBack) : Prop :=
  let p := (s.lock a).budget.pools
  lb.loaded = req.hostHitLength ∧ c.memory.availableAndEvictable p - req.hostHitLength ≤
        c.memory.availableAndEvictable lb.pools ∧
      p.swaAvailable + p.swaEvictable - c.memory.hostTokens req.swaHostHitLength ≤
        lb.pools.swaAvailable + lb.pools.swaEvictable ∨
    lb.loaded = 0 ∧ c.memory.availableAndEvictable lb.pools = c.memory.availableAndEvictable p ∧
      lb.pools.swaAvailable + lb.pools.swaEvictable = p.swaAvailable + p.swaEvictable

/-- A request that joins through the check: it passed over the pools `p`, with `host` tokens of its
prefix still to be loaded, and the pools are `q` when it joins. -/
inductive Checked (c : Config) (s : Adder) (req : Req) (s' : Adder) : Prop
  | intro (p q : Pools) (host : ℕ) (swaHost e maxNew : ℤ) (limit : Option ℤ)
      (check : c.memory.checkPrefill (s.withPools p).budget
        (req.fillLen - (req.prefixLen + host)) (c.totalTokens req) (c.swaNewTokens req) swaHost
        s.remChunkTokens = (true, limit))
      (pos : 0 < e) (le : e ≤ req.fillLen - (req.prefixLen + host))
      (le_limit : ∀ l, limit = some l → e ≤ l) (maxNew_nonneg : 0 ≤ maxNew)
      (loads : c.memory.availableAndEvictable p - host ≤ c.memory.availableAndEvictable q)
      (loadsSwa : p.swaAvailable + p.swaEvictable - c.memory.hostTokens swaHost ≤
        q.swaAvailable + q.swaEvictable)
      (joined : Joined c (s.withPools q) req (req.prefixLen + host : ℕ) e maxNew s')

/-- A call that lets nobody join leaves the pools as large as they were. -/
def Refused (c : Config) (s s' : Adder) : Prop :=
  ∃ p, s' = s.withPools p ∧
    c.memory.availableAndEvictable p = c.memory.availableAndEvictable s.budget.pools ∧
    p.swaAvailable + p.swaEvictable = s.budget.pools.swaAvailable + s.budget.pools.swaEvictable

lemma Refused.refl (c : Config) (s : Adder) : Refused c s s := ⟨s.budget.pools, rfl, rfl, rfl⟩

lemma unlock_lock (s : Adder) (a : Answers) : (s.lock a).unlock a = s := by
  simp [lock, unlock]

variable {a : Answers}

lemma refused_unlock {p : Pools} (h : c.memory.availableAndEvictable p =
      c.memory.availableAndEvictable (s.lock a).budget.pools)
    (hswa : p.swaAvailable + p.swaEvictable =
      (s.lock a).budget.pools.swaAvailable + (s.lock a).budget.pools.swaEvictable) :
    Refused c s (((s.lock a).withPools p).unlock a) := by
  refine ⟨_, rfl, ?_, ?_⟩
  · simp only [availableAndEvictable, lock, withPools] at h hswa ⊢
    split at h <;> linarith
  · grind [lock, withPools]

variable {adm : Admission}

lemma commitPrefillAdmission_ok (hn : 0 ≤ n) (h : s.commitPrefillAdmission c req n adm = .ok s') :
    n = adm.prefixLen ∧ Joined c s req n adm.extendLen adm.maxNewTokens s' := by
  rw [commitPrefillAdmission] at h
  split at h
  · cases h
  rename_i heq
  rw [not_not] at heq
  subst heq
  cases h
  exact ⟨rfl, (Joined.of_append ..).account hn⟩

variable {align : Option ℕ+}

/-- What is selected over the pools `p` and committed over the pools `q` has been checked. -/
lemma checked_of_select {p q : Pools} (host : ℕ) {swaHost : ℤ} {chunked : Bool}
    (hlt : req.prefixLen + host < req.fillLen)
    (hsel : (s.withPools p).selectPrefillAdmission c req (c.totalTokens req) host swaHost align
      chunked = .ok adm)
    (hcommit : (s.withPools q).commitPrefillAdmission c req (req.prefixLen + host) adm = .ok s')
    (loads : c.memory.availableAndEvictable p - host ≤ c.memory.availableAndEvictable q)
    (loadsSwa : p.swaAvailable + p.swaEvictable - c.memory.hostTokens swaHost ≤
      q.swaAvailable + q.swaEvictable) : Checked c s req s' := by
  obtain ⟨limit, hcheck, -, hpos, hle, hlimit, hmax⟩ :=
    selectPrefillAdmission_ok (by exact_mod_cast hlt) hsel
  obtain ⟨-, hjoin⟩ := commitPrefillAdmission_ok (by positivity) hcommit
  exact ⟨p, q, host, swaHost, _, _, limit, hcheck, hpos, hle, hlimit, hmax, loads, loadsSwa,
    by exact_mod_cast hjoin⟩

variable {o : Outcome}

section
variable (hload : ∀ lb ∈ a.loadBack, AllOrNothing c s req a lb)

include hload

lemma loadBackAndCommit_cases {chunked : Bool}
    (hsel : (s.lock a).selectPrefillAdmission c req (c.totalTokens req) req.hostHitLength
      req.swaHostHitLength align chunked = .ok adm)
    (h : (s.lock a).loadBackAndCommit c req a align chunked adm = .ok o) :
    Refused c s o.adder ∨ Checked c s req o.adder := by
  rw [loadBackAndCommit] at h
  cases hlb : a.loadBack with
  | none =>
    simp only [hlb, unlock_lock] at h
    cases h
    exact .inl (.refl c s)
  | some lb =>
    have hall := hload lb hlb
    simp only [hlb] at h
    by_cases hlt : lb.loaded < req.hostHitLength
    · -- nothing was loaded, and the selection is made again without the host prefix
      have hnone := hall.resolve_left fun hwhole => absurd hwhole.1 hlt.ne
      rw [if_neg (by omega), if_pos hlt] at h
      cases hsel' : ((s.lock a).withPools lb.pools).selectPrefillAdmission c req
          (c.totalTokens req) 0 0 align chunked with
      | error verdict =>
        have hsel'' := hsel'
        rw [withPools] at hsel''
        rw [hsel''] at h
        cases h
        exact .inl (refused_unlock hnone.2.1 hnone.2.2)
      | ok adm' =>
        have hsel'' := hsel'
        rw [withPools] at hsel''
        simp only [hsel'', bind_ok] at h
        obtain ⟨s1, hcommit, ho⟩ := h
        cases ho
        rw [hnone.1] at hcommit
        exact .inr (checked_of_select 0 (by
          have := req.matched_lt
          omega) hsel' hcommit (by simp) (by simp [c.memory.hostTokens_zero]))
    · -- the whole host prefix was loaded
      have hwhole : lb.loaded = req.hostHitLength := by
        rcases hall with hwhole | hnone
        · exact hwhole.1
        · omega
      rw [if_neg (by omega), if_neg hlt, if_neg (by omega), bind_ok] at h
      obtain ⟨s1, hcommit, ho⟩ := h
      cases ho
      rw [hwhole] at hcommit
      refine .inr (checked_of_select (p := (s.lock a).budget.pools)
        _ req.matched_lt hsel hcommit ?_ ?_)
      · rcases hall with ⟨-, hfull, -⟩ | ⟨-, hfull, -⟩ <;> linarith
      · have := c.memory.hostTokens_nonneg req.swaHostHitLength
        rcases hall with ⟨-, -, hswa⟩ | ⟨-, -, hswa⟩ <;> linarith

lemma admitLocked_cases {chunked : Bool}
    (h : (s.lock a).admitLocked c req a align chunked limit = .ok o) :
    Refused c s o.adder ∨ Checked c s req o.adder := by
  rw [admitLocked] at h
  cases hsel : (s.lock a).selectPrefillAdmission c req (c.totalTokens req) req.hostHitLength
      req.swaHostHitLength align chunked with
  | error verdict =>
    simp only [hsel, unlock_lock] at h
    cases h
    exact .inl (.refl c s)
  | ok adm =>
    simp only [hsel, unlock_lock] at h
    split at h
    · cases h
      exact .inl (.refl c s)
    · split_ifs at h with hallows hneeds
      · cases h
        exact .inl (.refl c s)
      · exact loadBackAndCommit_cases hload hsel h
      · have hhost : req.hostHitLength = 0 ∧ req.swaHostHitLength = 0 := by
          simpa [Req.needsHostLoadBack] using hneeds
        rw [bind_ok] at h
        obtain ⟨s1, hcommit, ho⟩ := h
        cases ho
        rw [hhost.1] at hsel
        refine .inr (checked_of_select (p := (s.lock a).budget.pools)
          (q := (s.lock a).budget.pools) 0 ?_ hsel hcommit (by simp) ?_)
        · grind [req.matched_lt]
        · have := c.memory.hostTokens_nonneg req.swaHostHitLength
          linarith

/-- The ways a call of `add_one_req` can end. -/
lemma addOneReq_cases {chunked : Bool}
    (h : s.addOneReq c req a chunked align = .ok o) :
    s.addOneReqIgnoreEos c req a.allowsPrefill = .ok o ∨
      Refused c s o.adder ∨ Checked c s req o.adder := by
  rw [addOneReq] at h
  split_ifs at h with hmax hignore htotal hinput
  · cases h
    exact .inr (.inl (.refl c s))
  · exact .inl h
  · cases h
    exact .inr (.inl (.refl c s))
  · split at h <;> cases h <;> exact .inr (.inl (.refl c s))
  · split at h
    · cases h
      exact .inr (.inl (.refl c s))
    · exact .inr (admitLocked_cases hload h)

end

/-! ## The pass -/

/-- The calls of a pass. -/
inductive PassCall
  | chunked (req : Req) (chunkedReqLimit : Option ℤ)
  | one (req : Req) (answers : Answers) (hasChunkedReq : Bool) (truncationAlignSize : Option ℕ+)

/-- The state after a call, unless the code raises. -/
def passStep (c : Config) (s : Adder) : PassCall → Option Adder
  | .chunked req limit => (s.addChunkedReq c req limit).toOption.map Prod.snd
  | .one req a chunked align => (s.addOneReq c req a chunked align).toOption.map Outcome.adder

/-- How the rest of the system behaves: a request goes on only if a page is left of the full pool,
which consists of whole pages, and a load-back is all or nothing. -/
def PassOk (c : Config) (s : Adder) : PassCall → Prop
  | .chunked _ _ => (c.memory.pageSize : ℚ) ≤ c.memory.remainingTotal s.budget ∧
      (c.memory.pageSize : ℤ) ∣ c.memory.availableAndEvictable s.budget.pools
  | .one req a _ _ => ∀ lb ∈ a.loadBack, AllOrNothing c s req a lb

instance (c : Config) (s : Adder) (req : Req) (a : Answers) (lb : LoadBack) :
    Decidable (AllOrNothing c s req a lb) :=
  inferInstanceAs (Decidable (_ ∧ _ ∧ _ ∨ _ ∧ _ ∧ _))

instance (c : Config) (s : Adder) : ∀ call : PassCall, Decidable (PassOk c s call)
  | .chunked _ _ => inferInstanceAs (Decidable (_ ∧ _))
  | .one _ a _ _ => inferInstanceAs (Decidable (∀ lb ∈ a.loadBack, _))

section
variable (h : Reserved c s)

include h

lemma Reserved.chunked (hok : PassOk c s (.chunked req limit))
    (hs : passStep c s (.chunked req limit) = some s') : Reserved c s' := by
  obtain ⟨⟨r, s1⟩, hr, heq⟩ := map_eq_some_iff.1 hs
  have heq' : s1 = s' := heq
  subst heq'
  have hp := c.memory.page_pos'
  have hpage : (0 : ℚ) < c.memory.pageSize := by exact_mod_cast c.memory.page_pos
  have hpos : (0 : ℚ) ≤ c.memory.remainingTotal s.budget := hpage.le.trans hok.1
  have hroom : 0 < truncate (c.memory.remainingTotal s.budget) :=
    hp.trans_le (le_truncate hpos (by exact_mod_cast hok.1))
  rcases addChunkedReq_cases hroom (toOption_ok hr) with
    rfl | ⟨rem, e, maxNew, hrem, hmax, hchunk, hjoin⟩
  · exact h
  · have hle : ∀ rem', s.remChunkTokens = some rem' → e ≤ rem' := by
      grind [hchunk.le]
    rcases hchunk with ⟨he, herem, htrunc, hswa⟩ | ⟨hdead, rfl⟩
    · have hlive : s.Live := fun rem' hr' => he.trans_le (hle rem' hr')
      refine h.join hjoin hmax hle (.inl he.le) ?_ fun hw => ?_
      · have hfloor : (e : ℚ) ≤ c.memory.remainingTotal s.budget :=
          le_trans (by exact_mod_cast htrunc) (truncate_le hpos)
        have hroom' : (e : ℚ) ≤ (c.memory.availableAndEvictable s.budget.pools : ℚ) -
            s.neededTokens c := by
          rw [remainingTotal] at hfloor
          linarith [h.total hlive]
        -- both sides are whole pages
        have hdvd : (c.memory.pageSize : ℤ) ∣
            c.memory.availableAndEvictable s.budget.pools - s.neededTokens c :=
          dvd_sub hok.2 (by exact_mod_cast Dvd.intro_left _ rfl)
        have := (ceilPagedTokens_le_iff hp hdvd).2 (by exact_mod_cast hroom')
        rw [max_eq_left he.le, ceil]
        linarith
      · have hroom' := hswa hw
        have hneed := h.swa hlive hw
        have hlt := c.memory.ceil_lt e
        obtain ⟨w, hw'⟩ := isSome_iff_exists.1 hw
        simp only [remainingSwa, hw'] at hroom'
        rw [max_eq_left he.le]
        linarith
    · -- the chunk budget was used up: nothing is allocated, and nobody joins afterwards
      have hzero : c.memory.ceil (max e 0) = 0 := by
        rw [max_eq_right hdead, ceil]
        exact ceilPagedTokens_of_dvd hp (dvd_zero _)
      refine h.join hjoin hmax hle (.inr fun hl => ?_) ?_ fun hw => ?_
      · obtain ⟨charge, hcharge, heq⟩ := hjoin.remChunkTokens
        have := hl (e - charge) (by rw [heq, hrem, map_some])
        linarith
      · simpa [hzero] using h.fits.1
      · simpa [hzero] using h.fits.2 hw

lemma Reserved.checked (hc : Checked c s req s') : Reserved c s' := by
  obtain ⟨p, q, host, swaHost, e, maxNew, limit, hcheck, hpos, hle, hlimit, hmax, hloads,
    hloadsSwa, hjoin⟩ := hc
  have hfacts := c.memory.checkPrefill_eq_true hcheck
  have hrem : ∀ rem, s.remChunkTokens = some rem → e ≤ rem := by
    intro rem hr
    rw [hr] at hcheck
    obtain ⟨l, hl, hle'⟩ := c.memory.checkPrefill_limit_le hcheck
    exact (hlimit l hl).trans hle'
  have hlive : s.Live := fun rem hr => hpos.trans_le (hrem rem hr)
  have hlt := c.memory.ceil_lt e
  refine h.join hjoin hmax hrem (.inl hpos.le) ?_ fun hw => ?_
  · have htotal := h.total hlive
    have hcheck := hfacts.1
    have hmaxNew := c.swaNewTokens_nonneg req
    have hint : (s.neededTokens c : ℤ) + c.totalTokens req < c.memory.availableAndEvictable p := by
      have : (s.neededTokens c : ℚ) + c.totalTokens req < c.memory.availableAndEvictable p := by
        grind [remainingTotal, withPools]
      exact_mod_cast this
    rw [Config.totalTokens, Req.candExtendInputLen] at hint
    rw [max_eq_left hpos.le]
    linarith
  · have hneed := h.swa hlive hw
    obtain ⟨w, hw'⟩ := isSome_iff_exists.1 hw
    have hroom := c.memory.ceil_le_remainingSwa hw' hcheck (c.swaNewTokens_nonneg req) hle hlimit
    simp only [remainingSwa, hw', withPools] at hroom
    rw [max_eq_left hpos.le]
    linarith

lemma Reserved.ignoreEos {allows : Bool}
    (hs : s.addOneReqIgnoreEos c req allows = .ok o) : Reserved c o.adder := by
  have htracked : Reserved c (s.tracked c req) := ⟨h.fits, h.total, h.swa⟩
  rcases addOneReqIgnoreEos_cases hs with ⟨-, heq⟩ | ⟨hfits, heq |
    ⟨-, e, maxNew, hpos, hle, hrem, hmax, hjoin⟩⟩
  · exact heq ▸ h
  · exact heq ▸ htracked
  · have hlive : s.Live := fun rem hr => hpos.trans_le (hrem rem hr)
    rw [canAllocatePrefill, Bool.and_eq_true, decide_eq_true_eq, le_min_iff] at hfits
    have hceil : c.memory.ceil e ≤ c.memory.ceil req.candExtendInputLen :=
      ceilPagedTokens_mono c.memory.page_pos' hle
    refine htracked.join hjoin hmax hrem (.inl hpos.le) ?_ fun hw => ?_
    · have htotal := h.total hlive
      have : (s.neededTokens c : ℚ) + c.memory.ceil req.candExtendInputLen ≤
          c.memory.availableAndEvictable s.budget.pools := by
        grind [remainingTotal]
      have hint : (s.neededTokens c : ℤ) + c.memory.ceil req.candExtendInputLen ≤
          c.memory.availableAndEvictable s.budget.pools := by exact_mod_cast this
      rw [max_eq_left hpos.le, neededTokens_tracked]
      linarith
    · have hneed := h.swa hlive hw
      obtain ⟨w, hw'⟩ := isSome_iff_exists.1 hw
      have hest := c.memory.le_swaTokens w 0 hle hrem (c.swaNewTokens_nonneg req)
      have hlt := c.memory.ceil_lt e
      have hroom := hfits.2
      simp only [hw', decide_eq_true_eq, remainingSwa] at hroom
      rw [c.memory.hostTokens_zero] at hest
      rw [max_eq_left hpos.le, neededTokens_tracked]
      linarith

lemma Reserved.refused (hr : Refused c s s') : Reserved c s' := by
  obtain ⟨p, rfl, hfull, hswa⟩ := hr
  refine ⟨⟨?_, fun hw => ?_⟩, h.total, h.swa⟩
  · exact h.fits.1.trans hfull.ge
  · exact (h.fits.2 hw).trans hswa.ge

lemma Reserved.step {call : PassCall} (hok : PassOk c s call)
    (hs : passStep c s call = some s') : Reserved c s' := by
  cases call with
  | chunked req limit => exact h.chunked hok hs
  | one req a chunked align =>
    obtain ⟨o, ho, rfl⟩ := map_eq_some_iff.1 hs
    rcases addOneReq_cases hok (toOption_ok ho) with hignore | hrefused | hchecked
    · exact h.ignoreEos hignore
    · exact h.refused hrefused
    · exact h.checked hchecked

end

lemma reserved_start {pools : Pools} {input : ℤ} {chunk : Option ℤ} {mixed : ℕ}
    (hfull : 0 ≤ c.memory.availableAndEvictable pools)
    (hswa : c.memory.swa.isSome → 0 ≤ pools.swaAvailable + pools.swaEvictable)
    (hoffset : 0 ≤ (start c pools input chunk mixed).budget.totalOffset) :
    Reserved c (start c pools input chunk mixed) where
  fits := ⟨by simpa [neededTokens, start, Alloc.getNumNewPages] using hfull,
    fun hw => by simpa [neededTokens, start, Alloc.getNumNewPages] using hswa hw⟩
  total := fun _ => by simpa [neededTokens, start, Alloc.getNumNewPages] using hoffset
  swa := fun _ _ => by simp [neededTokens, start, Alloc.getNumNewPages]

/-- **An admitted batch fits in memory.**  In every state of a pass whose offset does not start
below zero, the pages that `alloc_extend` will need are free or evictable, in the full pool and in
the sliding-window pool, with the prefixes of the admitted requests locked. -/
theorem admitted_fits (c : Config) (pools : Pools) (input : ℤ) (chunk : Option ℤ) (mixed : ℕ)
    (hfull : 0 ≤ c.memory.availableAndEvictable pools)
    (hswa : c.memory.swa.isSome → 0 ≤ pools.swaAvailable + pools.swaEvictable)
    (hoffset : 0 ≤ (Adder.start c pools input chunk mixed).budget.totalOffset)
    (s : Adder) (hrun : Run (passStep c) (PassOk c) (Adder.start c pools input chunk mixed) s) :
    s.Fits c :=
  (hrun.invariant (reserved_start hfull hswa hoffset) fun _ _ _ h hok hs => h.step hok hs).fits

/-! ### A pass with a chunk, a cached prefix and a host prefix -/

/-- Pages of two tokens and a window of four. -/
def hybridConfig : Config where
  memory := { pageSize := 2, swa := some ⟨40, some 4, false⟩, page_pos := Nat.two_pos }
  clipMaxNewTokens := 4096
  newTokenRatio := 1 / 2
  exactChunkFill := false
  shortestPrefillFirst := false
  treeCacheDisabled := false
  boundedReplay := false
  prefillMaxRequests := none
  runningReqs := []
  tilesExceed := fun _ _ => false

/-- A request for one more token, with `fill` tokens, of which `cached` are on the device and
`host` on the host. -/
def waiting (fill cached host : ℕ) (h : cached + host < fill) : Req where
  originInputLen := fill
  outputLen := 0
  fillLen := fill
  prefixLen := cached
  hostHitLength := host
  swaHostHitLength := host
  maxNewTokens := 1
  ignoreEos := false
  finished := false
  replays := true
  toFinish := none
  matched_lt := h

/-- Nothing is pinned and nothing is on the host. -/
def noAnswers : Answers := ⟨0, 0, true, none⟩

def hybridPools : Pools := ⟨36, 8, 30, 8⟩

/-- A request goes on with a chunk, one with a cached prefix joins, and one whose host prefix is
loaded back. -/
def hybridCalls : List PassCall :=
  [.chunked (waiting 9 4 0 (by decide)) none,
    .one (waiting 11 4 0 (by decide)) ⟨4, 4, true, none⟩ false none,
    .one (waiting 7 0 2 (by decide)) ⟨0, 0, true, some ⟨2, ⟨34, 4, 28, 4⟩⟩⟩ false none]

theorem admitted_fits_hybrid :
    ∃ s, Run (passStep hybridConfig) (PassOk hybridConfig)
        (Adder.start hybridConfig hybridPools 100 (some 100) 0) s ∧
      (s.canRunList.length = 3 ∧ s.neededTokens hybridConfig = 20) ∧ s.Fits hybridConfig := by
  exact Run.exists_of hybridCalls (by decide +kernel) (by decide +kernel) fun s hrun hs =>
    ⟨hs, admitted_fits hybridConfig hybridPools 100 (some 100) 0 (by decide) (fun _ => by decide)
      (by decide +kernel) s hrun⟩

/-! ### A finished request that has produced too much -/

/-- One pool; a request that was asked for two tokens has ended with six, and is still listed as
running. -/
def overshootConfig : Config where
  memory := { pageSize := 1, swa := none, page_pos := Nat.one_pos }
  clipMaxNewTokens := 4096
  newTokenRatio := 1
  exactChunkFill := false
  shortestPrefillFirst := false
  treeCacheDisabled := false
  boundedReplay := false
  prefillMaxRequests := none
  runningReqs := [{ waiting 3 2 0 (by decide) with
    maxNewTokens := 2, outputLen := 6, finished := true }]
  tilesExceed := fun _ _ => false

/-- Its share of the offset is minus four, and a request for eleven tokens joins over a pool
of ten. -/
theorem overshoot_overcommits :
    ∃ s, Run (passStep overshootConfig) (PassOk overshootConfig)
        (Adder.start overshootConfig ⟨10, 0, 0, 0⟩ 100 (some 100) 0) s ∧
      s.neededTokens overshootConfig = 11 ∧ ¬ s.Fits overshootConfig := by
  refine Run.exists_of [.one (waiting 11 0 0 (by decide)) noAnswers false none] ?_ ?_ fun _ _ => id
  · decide +kernel
  · decide +kernel

end Sglang.Prefill
