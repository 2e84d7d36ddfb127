import Sglang.Lib.Runs
import Sglang.Prefill.Adder
import Sglang.Lib.Lockstep

/-!
# What an admission does

Each way into the batch ends in the same update: the request is appended with its extend range, and
the budgets are charged.  `Joined` says so, and the lemmas of this file say, function by function,
what else is known when it happens:

* `Memory.le_swaTokens` — the estimate for the sliding-window pool covers the chunk and one page;
* `checkPrefill_eq_true` — what a passed check says about the remaining tokens;
* `addOneReqIgnoreEos_cases`, `continueChunk_joined`, `selectPrefillAdmission_ok` — what a call has
  compared before a request joins.
-/

namespace Sglang.Prefill
open Lib

variable {c : Config} {s s' : Adder} {req : Req}

/-! ## The estimate -/

lemma le_windowTokens {x e maxNew page window : ℤ} {limit : Option ℤ} (hx : e ≤ x)
    (hlimit : ∀ l, limit = some l → e ≤ l) (hmax : 0 ≤ maxNew) :
    e + page ≤ windowTokens x maxNew page limit window := by
  have halloc : ∀ alloc, e ≤ alloc →
      e + page ≤ max (alloc - window) 0 + min (x + maxNew) window + page := by
    omega
  cases limit with
  | none => exact halloc x hx
  | some l => exact halloc _ (le_min hx (hlimit l rfl))

namespace Memory
variable (m : Memory)

lemma page_pos' : (0 : ℤ) < m.pageSize := by exact_mod_cast m.page_pos

/-- The whole pages that a host prefix takes when it is loaded. -/
def hostTokens (hostHitLength : ℤ) : ℤ := if 0 < hostHitLength then m.ceil hostHitLength else 0

lemma hostTokens_zero : m.hostTokens 0 = 0 := if_neg (lt_irrefl 0)

lemma hostTokens_nonneg (host : ℤ) : 0 ≤ m.hostTokens host := by
  rw [hostTokens]
  split
  · exact ceilPagedTokens_nonneg m.page_pos' (by omega)
  · exact le_rfl

variable {maxNew : ℤ} {limit : Option ℤ}

/-- The estimate covers any part of the input that the chunk limit lets through, one page, and the
host prefix. -/
lemma le_swaTokens (w : SwaPool) (host : ℤ) {x e : ℤ} (hx : e ≤ x)
    (hlimit : ∀ l, limit = some l → e ≤ l) (hmax : 0 ≤ maxNew) :
    e + m.pageSize + m.hostTokens host ≤ m.swaTokens w x maxNew limit host := by
  have hadd : ∀ reserved, e + m.pageSize ≤ reserved → e + m.pageSize + m.hostTokens host ≤
      if 0 < host then reserved + ceilPagedTokens m.pageSize host else reserved := by
    grind [hostTokens, ceil]
  refine hadd _ ?_
  cases hw : w.slidingWindowSize with
  | none => linarith
  | some window =>
    dsimp only
    split
    · linarith
    · exact le_windowTokens hx hlimit hmax

lemma le_ceil (n : ℤ) : n ≤ m.ceil n := le_ceilPagedTokens m.page_pos' n

lemma ceil_lt (n : ℤ) : m.ceil n < n + m.pageSize := ceilPagedTokens_lt m.page_pos' n

lemma ceil_ceil (n : ℤ) : m.ceil (m.ceil n) = m.ceil n :=
  ceilPagedTokens_ceilPagedTokens m.page_pos' n

/-! ## The check -/

variable {b : Budget} {ext total host : ℤ}

/-- What a passed check says: the full pool has room, and so has the sliding-window pool, either
for the whole need or for a chunk that is cut to what is left. -/
lemma checkPrefill_eq_true {limit' : Option ℤ}
    (h : m.checkPrefill b ext total maxNew host limit = (true, limit')) :
    (total : ℚ) < m.remainingTotal b ∧ match m.swa with
      | none => limit' = limit
      | some w =>
        m.swaTokens w (m.ceil ext) maxNew limit host < m.remainingSwa b ∧ limit' = limit ∨
          w.sizeSwa ≤ m.swaTokens w (m.ceil ext) maxNew limit host ∧
            0 < m.chunkCap w b maxNew host ∧
            ∃ l, limit = some l ∧ limit' = some (min l (m.chunkCap w b maxNew host)) := by
  rw [checkPrefill] at h
  by_cases ht : m.remainingTotal b ≤ total
  · grind
  refine ⟨not_le.1 ht, ?_⟩
  cases hw : m.swa with
  | none =>
    grind
  | some w =>
    by_cases hn : m.swaTokens w (m.ceil ext) maxNew limit host < m.remainingSwa b
    · grind
    · grind

/-- The check only lowers the chunk limit. -/
lemma checkPrefill_limit_le {rem : ℤ}
    (h : m.checkPrefill b ext total maxNew host (some rem) = (true, limit)) :
    ∃ l, limit = some l ∧ l ≤ rem := by
  have hcheck := (m.checkPrefill_eq_true h).2
  cases hw : m.swa with
  | none =>
    grind
  | some w =>
    grind

/-- The cap is a number of whole pages that leaves a page and the host prefix free. -/
lemma chunkCap_le {w : SwaPool} (hmax : 0 ≤ maxNew) (hpos : 0 < m.chunkCap w b maxNew host) :
    m.chunkCap w b maxNew host + m.pageSize + m.hostTokens host ≤ m.remainingSwa b := by
  have hroom := m.le_swaTokens w host (le_refl (0 : ℤ))
    (fun _ (h : none = some _) => by cases h) hmax
  rw [chunkCap] at hpos ⊢
  have hfloor : 0 < floorPagedTokens m.pageSize
      (m.remainingSwa b - m.swaTokens w 0 maxNew none host) := by
    omega
  rw [max_eq_right hfloor.le]
  have := floorPagedTokens_le m.page_pos' (m.remainingSwa b - m.swaTokens w 0 maxNew none host)
  linarith

lemma dvd_chunkCap (w : SwaPool) (b : Budget) (maxNew host : ℤ) :
    (m.pageSize : ℤ) ∣ m.chunkCap w b maxNew host := by
  rw [chunkCap]
  rcases max_choice 0 (floorPagedTokens m.pageSize
    (m.remainingSwa b - m.swaTokens w 0 maxNew none host)) with h | h <;> rw [h]
  · exact dvd_zero _
  · exact dvd_floorPagedTokens ..

/-- Whatever part of the input joins after a passed check, its pages and those of the host prefix
are there in the sliding-window pool. -/
lemma ceil_le_remainingSwa {e : ℤ} {limit' : Option ℤ} {w : SwaPool} (hw : m.swa = some w)
    (h : m.checkPrefill b ext total maxNew host limit = (true, limit')) (hmax : 0 ≤ maxNew)
    (hext : e ≤ ext) (he : ∀ l, limit' = some l → e ≤ l) :
    m.ceil e + m.hostTokens host ≤ m.remainingSwa b := by
  have hcheck := (m.checkPrefill_eq_true h).2
  rw [hw] at hcheck
  rcases hcheck with ⟨hlt, rfl⟩ | ⟨-, hpos, l, -, rfl⟩
  · have hneed := m.le_swaTokens w host (hext.trans (m.le_ceil ext)) he hmax
    have := m.ceil_lt e
    linarith
  · have hcap : m.ceil e ≤ m.chunkCap w b maxNew host :=
      (ceilPagedTokens_le_iff m.page_pos' (m.dvd_chunkCap w b maxNew host)).2
        ((he _ rfl).trans (min_le_right _ _))
    have := m.chunkCap_le hmax hpos
    have := m.page_pos'
    linarith

end Memory

/-! ## Joining the batch -/

/-- The state `s'` is `s` after a request has joined with `extendLen` tokens from `start` on. -/
structure Joined (c : Config) (s : Adder) (req : Req) (start extendLen maxNewTokens : ℤ)
    (s' : Adder) : Prop where
  canRunList : s'.canRunList = s.canRunList ++ [⟨req, start, start + extendLen⟩]
  budget : s'.budget =
    c.memory.reserve s.budget (c.memory.ceil extendLen) maxNewTokens s.remChunkTokens
  remChunkTokens : ∃ charge, extendLen ≤ charge ∧
    s'.remChunkTokens = s.remChunkTokens.map (· - charge)
  reqStates : s'.reqStates = s.reqStates

lemma Joined.of_append (c : Config) (s : Adder) (req : Req) (start e maxNew : ℤ) :
    Joined c s req start e maxNew
      ((s.append req start e).updatePrefillBudget c e maxNew (c.computeCharge e)) where
  canRunList := rfl
  budget := rfl
  remChunkTokens := by
    refine ⟨_, ?_, rfl⟩
    rw [Config.computeCharge]
    split
    · exact le_rfl
    · exact c.memory.le_ceil e
  reqStates := rfl

lemma Joined.account {start e maxNew n : ℤ} (h : Joined c s req start e maxNew s')
    (hn : 0 ≤ n) : Joined c s req start e maxNew (s'.accountPrefillCacheAdmission c req n) := by
  rw [Adder.accountPrefillCacheAdmission]
  split
  · obtain ⟨charge, hle, heq⟩ := h.remChunkTokens
    have hmin : 0 ≤ min n 128 := le_min hn (by norm_num)
    refine ⟨h.canRunList, h.budget, ⟨charge + min n 128, by linarith, ?_⟩, h.reqStates⟩
    dsimp only
    rw [heq, Option.map_map]
    exact congrArg (Option.map · s.remChunkTokens) (funext fun rem => sub_sub rem charge _)
  · exact h

lemma Config.swaNewTokens_nonneg (c : Config) (r : Req) : 0 ≤ c.swaNewTokens r := by
  exact le_min (le_max_right _ _) (by positivity)

lemma Config.clippedNewTokens_nonneg (c : Config) (r : Req) : 0 ≤ c.clippedNewTokens r := by
  simp [Config.clippedNewTokens]

lemma Config.le_chunkFitTokens (c : Config) (n : ℤ) : n ≤ c.chunkFitTokens n := by
  rw [Config.chunkFitTokens]
  split
  · exact le_rfl
  · exact c.memory.le_ceil n

lemma Req.candExtendInputLen_pos (r : Req) : 0 < r.candExtendInputLen := by
  grind [r.matched_lt, Req.candExtendInputLen]

namespace Adder

/-- The same pass over other pools. -/
def withPools (s : Adder) (p : Pools) : Adder := { s with budget := { s.budget with pools := p } }

/-! ## Requests of known length -/

/-- The state once the request has been entered into `req_states`. -/
def tracked (c : Config) (s : Adder) (req : Req) : Adder :=
  { s with reqStates := some (s.trackReq c req) }

lemma commitIgnoreEos_cases {o : Outcome} (h : s.commitIgnoreEos c req = .ok o) :
    o.adder = s ∨ ∃ e maxNew, 0 < e ∧ e ≤ req.candExtendInputLen ∧
      (∀ rem, s.remChunkTokens = some rem → e ≤ rem) ∧ 0 ≤ maxNew ∧
      Joined c s req req.prefixLen e maxNew o.adder := by
  rw [commitIgnoreEos] at h
  dsimp only at h
  split_ifs at h with hwhole htile hrem htile hstart
  · cases h
    exact .inl rfl
  · cases h
    refine .inr ⟨_, _, req.candExtendInputLen_pos, le_rfl, fun rem hr => ?_,
      c.clippedNewTokens_nonneg req, .of_append ..⟩
    simpa [hr] using hwhole
  · cases h
    exact .inl rfl
  · cases h
    exact .inl rfl
  · cases h
    refine .inr ⟨_, _, not_le.1 hrem, ?_, fun rem hr => ?_, le_rfl, .of_append ..⟩
    · cases hr : s.remChunkTokens with
      | none => simp [hr] at hwhole
      | some rem =>
        grind
    · rw [hr, Option.getD_some]

/-- A call either does not fit, or enters the request and then stops, or lets it join. -/
lemma addOneReqIgnoreEos_cases {o : Outcome} {allows : Bool}
    (h : s.addOneReqIgnoreEos c req allows = .ok o) :
    let fits := c.memory.canAllocatePrefill s.budget (c.memory.ceil req.candExtendInputLen)
      req.candExtendInputLen (c.swaNewTokens req) s.remChunkTokens
    fits = false ∧ o.adder = s ∨ fits = true ∧ (o.adder = s.tracked c req ∨
      (c.memory.swa = none → sweepReqStates
        (c.memory.remainingCurrent s.budget - c.memory.ceil req.candExtendInputLen) 0
        (s.trackReq c req) = true) ∧ ∃ e maxNew, 0 < e ∧ e ≤ req.candExtendInputLen ∧
        (∀ rem, s.remChunkTokens = some rem → e ≤ rem) ∧ 0 ≤ maxNew ∧
        Joined c (s.tracked c req) req req.prefixLen e maxNew o.adder) := by
  rw [addOneReqIgnoreEos] at h
  dsimp only at h ⊢
  split_ifs at h with hfits hsweep hallows
  · cases h
    exact .inl ⟨by simpa using hfits, rfl⟩
  · cases h
    exact .inr ⟨by simpa using hfits, .inl rfl⟩
  · cases h
    exact .inr ⟨by simpa using hfits, .inl rfl⟩
  · refine .inr ⟨by simpa using hfits, ?_⟩
    rcases commitIgnoreEos_cases h with heq | hjoin
    · exact .inl heq
    · refine .inr ⟨fun hswa => ?_, hjoin⟩
      simpa [hswa] using hsweep

/-! ## A request in the middle of its prefill -/

lemma continueChunk_joined (c : Config) (s : Adder) (req : Req) (remTokens : ℤ) :
    ∃ maxNew, 0 ≤ maxNew ∧
      Joined c s req req.prefixLen (min req.candExtendInputLen remTokens) maxNew
        (s.continueChunk c req remTokens).2 := by
  refine ⟨_, ?_, .of_append ..⟩
  split
  · exact le_rfl
  · exact c.clippedNewTokens_nonneg req

/-! ## A new request -/

lemma truncationAlign_le (align : Option ℕ+) (n : ℤ) : truncationAlign align n ≤ n := by
  cases align with
  | none => exact le_rfl
  | some size => exact floorPagedTokens_le (by exact_mod_cast size.pos) n

/-- A cut chunk stays below the limit, and in whole pages unless the chunk is filled exactly. -/
lemma chunkLen_le (c : Config) (n limit : ℤ) (align : Option ℕ+) :
    chunkLen c n limit align ≤
      if c.exactChunkFill then limit else floorPagedTokens c.memory.pageSize limit := by
  rw [chunkLen]
  split
  · exact truncationAlign_le align limit
  have h1 := truncationAlign_le align (floorPagedTokens c.memory.pageSize limit)
  have h2 := floorPagedTokens_le c.memory.page_pos'
    (n + truncationAlign align (floorPagedTokens c.memory.pageSize limit))
  linarith

/-- A chunk is cut because the input does not fit below the limit, so it is part of the input. -/
lemma chunkLen_le_limit (c : Config) (n : ℤ) {limit ext : ℤ} (align : Option ℕ+)
    (h : limit < c.chunkFitTokens ext) :
    chunkLen c n limit align ≤ ext ∧ chunkLen c n limit align ≤ limit := by
  have hle := chunkLen_le c n limit align
  have hfloor := floorPagedTokens_le c.memory.page_pos' limit
  rw [Config.chunkFitTokens] at h
  by_cases hexact : c.exactChunkFill = true
  · grind
  rw [if_neg hexact] at h hle
  refine ⟨hle.trans ?_, hle.trans hfloor⟩
  -- two multiples of the page size, one of them smaller
  by_contra hlt
  have := (ceilPagedTokens_le_iff c.memory.page_pos'
    (dvd_floorPagedTokens c.memory.pageSize limit)).2 (not_le.1 hlt).le
  rw [Memory.ceil] at h
  linarith

/-- What a selected admission looks like: it starts after the prefix, takes part of the rest, and
stays below the limit that the check returned. -/
lemma selectPrefillAdmission_ok {total host swaHost : ℤ} {align : Option ℕ+} {chunked : Bool}
    {a : Admission} (hlt : req.prefixLen + host < req.fillLen)
    (h : s.selectPrefillAdmission c req total host swaHost align chunked = .ok a) :
    ∃ limit, c.memory.checkPrefill s.budget (req.fillLen - (req.prefixLen + host)) total
        (c.swaNewTokens req) swaHost s.remChunkTokens = (true, limit) ∧
      a.prefixLen = req.prefixLen + host ∧ 0 < a.extendLen ∧
      a.extendLen ≤ req.fillLen - (req.prefixLen + host) ∧
      (∀ l, limit = some l → a.extendLen ≤ l) ∧ 0 ≤ a.maxNewTokens := by
  rw [selectPrefillAdmission] at h
  dsimp only at h
  split at h
  · cases h
  rename_i limit hcheck
  refine ⟨limit, hcheck, ?_⟩
  split_ifs at h with hinput hwhole htile hpolicy hlen htile'
  · cases h
    refine ⟨rfl, by linarith, le_rfl, fun l hl => ?_, c.clippedNewTokens_nonneg req⟩
    rw [hl, Option.all_some, decide_eq_true_eq] at hwhole
    exact (c.le_chunkFitTokens _).trans hwhole
  · cases h
    cases limit with
    | none => simp at hwhole
    | some l =>
      rw [Option.all_some, decide_eq_true_eq, not_le] at hwhole
      have hle := chunkLen_le_limit c (req.prefixLen + host) align hwhole
      refine ⟨rfl, not_le.1 hlen, hle.1, fun l' hl => ?_, le_rfl⟩
      cases hl
      exact hle.2

end Adder

end Sglang.Prefill
