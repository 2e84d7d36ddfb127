import Sglang.Prefill.Admission

/-!
# Waiting on an idle sliding-window pool

`NO_TOKEN` tells the scheduler to wait until running requests give memory back.  If nothing runs,
nobody will, and the request waits forever.  `_apply_swa_token_gate` was written to prevent that:
on an idle pool it lets a request through with a smaller chunk, or marks it as aborted.

The chunk it finds is not used, though.  `_select_prefill_admission` asks the budget again, with the
prefix of the request locked, and the budget gives a smaller chunk only to a request that the empty
pool could not hold.  `idle_swa_answer_iff` says exactly when a request on an idle pool is answered:
it is admitted, or it is aborted, if and only if

* less than a page is left, so that the first gate aborts it, or
* with its prefix locked the pool has more left than it needs, or it needs at least the whole pool
  and a page is left besides its headroom,

and nothing else stops it.
-/

namespace Sglang.Prefill
open Lib Option Adder

variable {c : Config} {s s' : Adder} {req : Req} {w : SwaPool} {chunk : ℤ}

/-! ## The gate -/

/-- The tokens of the sliding-window pool that a request needs, with `host` tokens of its prefix
and `swaHost` tokens of its window on the host. -/
def swaNeed (c : Config) (w : SwaPool) (req : Req) (chunk host swaHost : ℤ) : ℤ :=
  c.memory.swaTokens w (c.memory.ceil (req.fillLen - (req.prefixLen + host)))
    (c.swaNewTokens req) (some chunk) swaHost

/-- What it needs besides its chunk. -/
def swaHeadroom (c : Config) (w : SwaPool) (req : Req) (swaHost : ℤ) : ℤ :=
  c.memory.swaTokens w 0 (c.swaNewTokens req) none swaHost

variable {n maxNew : ℤ} {limit : Option ℤ}

lemma page_le_swaTokens (c : Config) (w : SwaPool) (host : ℤ) (hn : 0 ≤ n)
    (hlimit : ∀ l, limit = some l → 0 ≤ l) (hmax : 0 ≤ maxNew) :
    c.memory.pageSize ≤ c.memory.swaTokens w n maxNew limit host := by
  have h := c.memory.le_swaTokens w host hn hlimit hmax
  have := c.memory.hostTokens_nonneg host
  linarith

/-- **On an idle pool the gate aborts exactly if less than a page is left**, and lets the request
through otherwise. -/
theorem applySwaTokenGate_idle (req : Req) (hw : c.memory.swa = some w)
    (hchunk : s.remChunkTokens = some chunk) (hpos : 0 < chunk) (hidle : c.swaWaitIsFutile = true)
    (hn : 0 ≤ n) (limit : Option ℤ) :
    if c.memory.remainingSwa s.budget < c.memory.pageSize then
      ∃ f, s.applySwaTokenGate c n req limit = (some .abort, limit, req.setFinishWithAbort f)
    else ∃ l, s.applySwaTokenGate c n req limit = (none, l, req) := by
  have hp := c.memory.page_pos'
  have hneed : (c.memory.pageSize : ℤ) ≤ c.memory.swaTokens w n (c.swaNewTokens req)
      (some chunk) req.swaHostHitLength :=
    page_le_swaTokens c w _ hn (fun l hl => by cases hl; exact hpos.le) (c.swaNewTokens_nonneg req)
  have hroom : (c.memory.pageSize : ℤ) ≤ c.memory.swaTokens w 0 (c.swaNewTokens req) none
      req.swaHostHitLength :=
    page_le_swaTokens c w _ le_rfl (fun _ hl => by cases hl) (c.swaNewTokens_nonneg req)
  rw [applySwaTokenGate]
  simp only [hw, hchunk, hidle]
  by_cases hlt : c.memory.remainingSwa s.budget < c.memory.pageSize
  · have hcap : s.swaChunkCap c w (c.swaNewTokens req) req.swaHostHitLength = 0 := by
      grind [swaChunkCap]
    have hpage : ¬ ((0 : ℤ) ≤ 0 ∧ True ∧
        (c.memory.pageSize : ℤ) ≤ c.memory.remainingSwa s.budget) :=
      fun h => absurd h.2.2 (by linarith)
    have hnone : ¬ ((some chunk).isSome = true ∧ (0 : ℤ) < 0) := fun h => lt_irrefl _ h.2
    rw [if_pos hlt, if_neg (by linarith), hcap, if_neg (by rwa [if_neg hpage])]
    exact ⟨_, rfl⟩
  · rw [if_neg hlt]
    by_cases hfits : c.memory.swaTokens w n (c.swaNewTokens req) (some chunk)
        req.swaHostHitLength < c.memory.remainingSwa s.budget
    · simp_all
    · -- a page is left, and the fallback lets the request have it
      have hcap : (0 : ℤ) <
          if s.swaChunkCap c w (c.swaNewTokens req) req.swaHostHitLength ≤ 0 ∧ True ∧
            (c.memory.pageSize : ℤ) ≤ c.memory.remainingSwa s.budget then (c.memory.pageSize : ℤ)
          else s.swaChunkCap c w (c.swaNewTokens req) req.swaHostHitLength := by
        grind
      rw [if_neg hfits, if_pos ⟨rfl, hcap⟩]
      exact ⟨_, rfl⟩

/-! ## The selection -/

/-- The limit on the chunk that the check returns: the chunk budget, or what is left of the pool
besides the headroom, in whole pages. -/
def swaLimit (c : Config) (w : SwaPool) (req : Req) (left chunk host swaHost : ℤ) : ℤ :=
  if swaNeed c w req chunk host swaHost < left then chunk
  else min chunk (floorPagedTokens c.memory.pageSize (left - swaHeadroom c w req swaHost))

/-- With `left` tokens left of the sliding-window pool, the request does not have to wait for it:
it needs less, or it needs at least the whole pool and a page is left besides its headroom. -/
def SwaOpen (c : Config) (w : SwaPool) (req : Req) (left chunk host swaHost : ℤ) : Prop :=
  swaNeed c w req chunk host swaHost < left ∨ w.sizeSwa ≤ swaNeed c w req chunk host swaHost ∧
      c.memory.pageSize ≤ left - swaHeadroom c w req swaHost

/-- The input fits below the limit, or a chunk may be cut and does not round to nothing. -/
def HasShape (c : Config) (req : Req) (limit host : ℤ) (align : Option ℕ+) (chunked : Bool) :
    Prop :=
  c.chunkFitTokens (req.fillLen - (req.prefixLen + host)) ≤ limit ∨
    ¬ (chunked = true ∧ c.shortestPrefillFirst = true) ∧
      0 < Adder.chunkLen c (req.prefixLen + host) limit align

/-- What the selection asks for over the pools `p`. -/
def Selects (c : Config) (w : SwaPool) (s : Adder) (req : Req) (p : Pools)
    (chunk host swaHost : ℤ) (align : Option ℕ+) (chunked : Bool) : Prop :=
  let left := p.swaAvailable + p.swaEvictable - s.budget.swaOffset
  SwaOpen c w req left chunk host swaHost ∧
    HasShape c req (swaLimit c w req left chunk host swaHost) host align chunked

variable {total : ℤ}

lemma checkPrefill_swa (req : Req) (chunk host swaHost : ℤ) (hw : c.memory.swa = some w)
    {b : Budget} (htotal : (total : ℚ) < c.memory.remainingTotal b) :
    (SwaOpen c w req (c.memory.remainingSwa b) chunk host swaHost →
      c.memory.checkPrefill b (req.fillLen - (req.prefixLen + host)) total (c.swaNewTokens req)
        swaHost (some chunk) =
          (true, some (swaLimit c w req (c.memory.remainingSwa b) chunk host swaHost))) ∧
    (¬ SwaOpen c w req (c.memory.remainingSwa b) chunk host swaHost →
      c.memory.checkPrefill b (req.fillLen - (req.prefixLen + host)) total (c.swaNewTokens req)
        swaHost (some chunk) = (false, none)) := by
  have hp := c.memory.page_pos'
  rw [Memory.checkPrefill, if_neg (not_le.2 htotal)]
  simp only [hw]
  rw [show c.memory.swaTokens w (c.memory.ceil (req.fillLen - (req.prefixLen + host)))
    (c.swaNewTokens req) (some chunk) swaHost = swaNeed c w req chunk host swaHost from rfl]
  rw [SwaOpen, swaLimit]
  by_cases hneed : swaNeed c w req chunk host swaHost < c.memory.remainingSwa b
  · grind
  rw [if_neg hneed, if_neg hneed]
  have hcap : c.memory.chunkCap w b (c.swaNewTokens req) swaHost = max 0
      (floorPagedTokens c.memory.pageSize
        (c.memory.remainingSwa b - swaHeadroom c w req swaHost)) := rfl
  by_cases hopen : w.sizeSwa ≤ swaNeed c w req chunk host swaHost ∧
      c.memory.pageSize ≤ c.memory.remainingSwa b - swaHeadroom c w req swaHost
  · have hfloor := (floorPagedTokens_pos_iff hp).2 hopen.2
    rw [if_pos hopen.1, hcap, max_eq_right hfloor.le, if_neg (not_le.2 hfloor)]
    exact ⟨fun _ => rfl, fun h => absurd (.inr hopen) h⟩
  · refine ⟨fun h => absurd (h.resolve_left hneed) hopen, fun _ => ?_⟩
    rw [if_pos]
    split_ifs with hsize
    · rw [hcap, max_le_iff]
      refine ⟨le_rfl, not_lt.1 fun hfloor => hopen ⟨hsize, ?_⟩⟩
      exact (floorPagedTokens_pos_iff hp).1 hfloor
    · exact le_rfl

/-- **The selection succeeds exactly if the pool is open to the request and its chunk has a
shape**; otherwise it answers with something else than an abort. -/
theorem selectPrefillAdmission_idle (req : Req) (host swaHost : ℤ) (align : Option ℕ+)
    (chunked : Bool) (hw : c.memory.swa = some w) (hchunk : s.remChunkTokens = some chunk)
    (hempty : s.canRunList = []) (htotal : (total : ℚ) < c.memory.remainingTotal s.budget) :
    (Selects c w s req s.budget.pools chunk host swaHost align chunked →
      ∃ adm, s.selectPrefillAdmission c req total host swaHost align chunked = .ok adm) ∧
    (¬ Selects c w s req s.budget.pools chunk host swaHost align chunked →
      ∃ verdict, verdict ≠ .abort ∧
        s.selectPrefillAdmission c req total host swaHost align chunked = .error verdict) := by
  have htile : ∀ n, s.tileStops c n = false := fun n => by rw [tileStops, hempty]; rfl
  have hleft : c.memory.remainingSwa s.budget =
      s.budget.pools.swaAvailable + s.budget.pools.swaEvictable - s.budget.swaOffset := by
    rw [Memory.remainingSwa, hw]
  obtain ⟨hopen, hclosed⟩ := checkPrefill_swa req chunk host swaHost hw htotal
  rw [hleft] at hopen hclosed
  rw [Selects, selectPrefillAdmission]
  rw [hchunk]
  by_cases ho : SwaOpen c w req
      (s.budget.pools.swaAvailable + s.budget.pools.swaEvictable - s.budget.swaOffset)
      chunk host swaHost
  · rw [hopen ho]
    simp only [htile, isNone_some, Bool.false_and, all_some, getD_some,
      decide_eq_true_eq, Bool.and_eq_true, Bool.false_eq_true, if_false]
    rw [HasShape]
    split_ifs with hfit hpolicy hlen
    · exact ⟨fun _ => ⟨_, rfl⟩, fun h => absurd ⟨ho, .inl hfit⟩ h⟩
    · grind
    · grind
    · exact ⟨fun _ => ⟨_, rfl⟩, fun h => absurd ⟨ho, .inr ⟨hpolicy, not_le.1 hlen⟩⟩ h⟩
  · rw [hclosed ho]
    exact ⟨fun h => absurd h.1 ho, fun _ => ⟨.noToken, by decide, rfl⟩⟩

/-! ## The answer -/

/-- The request has joined an empty batch, with something to compute. -/
def Admits (req : Req) (o : Outcome) : Prop :=
  ∃ x, o.adder.canRunList = [x] ∧ x.req = req ∧ 0 < x.extendLen

/-- The request has been marked as aborted, and the call says so. -/
def Aborts (req : Req) (o : Outcome) : Prop :=
  o.result = .abort ∧ ∃ f, o.req = req.setFinishWithAbort f

/-- The call does not leave the request waiting. -/
def Answered (req : Req) (r : Except Raised Outcome) : Prop :=
  ∃ o, r = .ok o ∧ (Admits req o ∨ Aborts req o)

lemma not_answered_error (req : Req) (e : Raised) : ¬ Answered req (.error e) :=
  fun ⟨_, h, _⟩ => by cases h

/-- A verdict other than an abort on an empty batch is no answer. -/
lemma not_answered_verdict {verdict : AddReqResult} (hne : verdict ≠ .abort)
    (hempty : s.canRunList = []) : ¬ Answered req (.ok ⟨verdict, req, s⟩) := by
  rintro ⟨o, ho, ⟨x, hx, -⟩ | ⟨habort, -⟩⟩
  · grind
  · cases ho
    exact hne habort

lemma budgetState_ne_abort (c : Config) (s : Adder) : s.budgetState c ≠ .abort := by
  grind [budgetState]

/-- A request that has joined an empty batch is answered exactly if it has something to compute. -/
lemma answered_joined_iff (hempty : s.canRunList = []) {start e : ℤ}
    (hj : Joined c s req start e maxNew s') :
    Answered req (.ok ⟨s'.budgetState c, req, s'⟩) ↔ 0 < e := by
  have hlist : s'.canRunList = [⟨req, start, start + e⟩] := by
    rw [hj.canRunList, hempty]
    rfl
  constructor
  · rintro ⟨o, ho, ⟨x, hx, -, hpos⟩ | ⟨habort, -⟩⟩
    · grind [Admitted.extendLen]
    · grind [budgetState_ne_abort]
  · intro hpos
    exact ⟨_, rfl, .inl ⟨_, hlist, rfl, by rwa [Admitted.extendLen, add_sub_cancel_left]⟩⟩

lemma answered_commit_iff (c : Config) (s : Adder) (req : Req) (n : ℤ) (adm : Admission)
    (hempty : s.canRunList = []) (hn : 0 ≤ n) (heq : n = adm.prefixLen) :
    Answered req (s.commitPrefillAdmission c req n adm >>= fun s' =>
      .ok ⟨s'.budgetState c, req, s'⟩) ↔ 0 < adm.extendLen := by
  rw [commitPrefillAdmission, if_neg (not_not_intro heq)]
  exact answered_joined_iff hempty ((Joined.of_append ..).account (heq ▸ hn))

/-- The load-back of the host prefix brings in at least what was promised and leaves something to
compute; or it brings in nothing, and the whole input can be computed. -/
def LoadsBack (c : Config) (w : SwaPool) (s : Adder) (req : Req) (a : Answers) (chunk : ℤ)
    (align : Option ℕ+) (chunked : Bool) : Prop :=
  ∃ lb, a.loadBack = some lb ∧
    (req.hostHitLength ≤ lb.loaded ∧ req.prefixLen + lb.loaded < req.fillLen ∨
      lb.loaded = 0 ∧ 0 < req.hostHitLength ∧ (c.totalTokens req : ℚ) <
          c.memory.availableAndEvictable lb.pools - s.budget.totalOffset ∧
        Selects c w s req lb.pools chunk 0 0 align chunked)

variable {align : Option ℕ+} {chunked : Bool} {host swaHost : ℤ}

lemma selectPrefillAdmission_full (htotal : c.memory.remainingTotal s.budget ≤ total) :
    s.selectPrefillAdmission c req total host swaHost align chunked = .error .noToken := by
  rw [selectPrefillAdmission, Memory.checkPrefill]
  simp only [if_pos htotal]

variable {a : Answers}

lemma answered_loadBack_iff (hw : c.memory.swa = some w)
    (hchunk : s.remChunkTokens = some chunk) (hempty : s.canRunList = []) {adm : Admission}
    (hstart : adm.prefixLen = req.prefixLen + req.hostHitLength) (hpos : 0 < adm.extendLen) :
    Answered req (s.loadBackAndCommit c req a align chunked adm) ↔
      LoadsBack c w s req a chunk align chunked := by
  rw [loadBackAndCommit, LoadsBack]
  cases hlb : a.loadBack with
  | none =>
    refine iff_of_false (not_answered_verdict (by decide) hempty) ?_
    rintro ⟨_, h, _⟩
    cases h
  | some lb =>
    simp only [Option.some.injEq, exists_eq_left']
    by_cases hpart : 0 < lb.loaded ∧ lb.loaded < req.hostHitLength
    · rw [if_pos hpart]
      exact iff_of_false (not_answered_error _ _) (by omega)
    · rw [if_neg hpart]
      by_cases hlt : lb.loaded < req.hostHitLength
      · -- nothing was loaded, and the selection is made again without the host prefix
        have hzero : lb.loaded = 0 := by omega
        rw [if_pos hlt, hzero]
        rw [show ({ s with budget := { s.budget with pools := lb.pools } } : Adder) =
          s.withPools lb.pools from rfl]
        by_cases htotal : (c.totalTokens req) <
            c.memory.remainingTotal (s.withPools lb.pools).budget
        · obtain ⟨hyes, hno⟩ := selectPrefillAdmission_idle (s := s.withPools lb.pools)
            req 0 0 align chunked hw hchunk hempty htotal
          by_cases hsel : Selects c w s req lb.pools chunk 0 0 align chunked
          · obtain ⟨adm', hadm⟩ := hyes hsel
            have hlt' : (req.prefixLen : ℤ) + 0 < req.fillLen := by
              grind [req.matched_lt]
            obtain ⟨-, -, hstart', hpos', -⟩ := selectPrefillAdmission_ok hlt' hadm
            rw [hadm]
            have hcommit := answered_commit_iff c (s.withPools lb.pools) req req.prefixLen adm'
              hempty (Int.natCast_nonneg _) (hstart'.trans (add_zero _)).symm
            refine iff_of_true ?_ (.inr ⟨rfl, by omega, htotal, hsel⟩)
            exact hcommit.2 hpos'
          · obtain ⟨verdict, hne, herr⟩ := hno hsel
            rw [herr]
            refine iff_of_false (not_answered_verdict hne hempty) ?_
            rintro (⟨hle, -⟩ | ⟨-, -, -, hsel'⟩)
            · omega
            · exact hsel hsel'
        · rw [selectPrefillAdmission_full (not_lt.1 htotal)]
          refine iff_of_false (not_answered_verdict (by decide) hempty) ?_
          rintro (⟨hle, -⟩ | ⟨-, -, htotal', -⟩)
          · omega
          · exact htotal htotal'
      · rw [if_neg hlt]
        by_cases hmore : req.hostHitLength < lb.loaded
        · -- the work shrinks by what was loaded beyond the promise
          rw [if_pos hmore]
          refine (answered_commit_iff c (s.withPools lb.pools) req (req.prefixLen + lb.loaded) _
            hempty (by positivity) rfl).trans ?_
          rw [shrinkAdmission]
          rw [lt_min_iff]
          omega
        · grind [answered_commit_iff, req.matched_lt]

/-! ## The whole call -/

/-- What lets a request through that does not take the way of known lengths: the selection succeeds
over the pools with the prefix locked, the delayer allows it, and so does the load-back. -/
def Admissible (c : Config) (w : SwaPool) (s : Adder) (req : Req) (a : Answers) (chunk : ℤ)
    (align : Option ℕ+) (chunked : Bool) : Prop :=
  Selects c w s req (s.lock a).budget.pools chunk req.hostHitLength req.swaHostHitLength align
      chunked ∧
    a.allowsPrefill = true ∧
    (req.needsHostLoadBack = true → LoadsBack c w s req a chunk align chunked)

/-- What lets a request of known length through when there is no prefix cache: its input fits into
both pools, the delayer allows it, and a chunk is only cut from a request without a prefix. -/
def AdmissibleIgnoreEos (c : Config) (w : SwaPool) (s : Adder) (req : Req) (a : Answers)
    (chunk : ℤ) : Prop :=
  (c.memory.ceil req.candExtendInputLen ≤ c.memory.remainingCurrent s.budget ∧
      c.memory.swaTokens w req.candExtendInputLen (c.swaNewTokens req) (some chunk) 0 ≤
        c.memory.remainingSwa s.budget) ∧
    a.allowsPrefill = true ∧ (req.candExtendInputLen ≤ chunk ∨ req.prefixLen = 0)

lemma realInputTokens_nonneg (c : Config) (req : Req) : 0 ≤ c.realInputTokens req := by
  have := req.matched_lt
  rw [Config.realInputTokens, Req.candExtendInputLen]
  exact ceilPagedTokens_nonneg c.memory.page_pos' (by omega)

lemma SwaOpen.page_le {left : ℤ} (h : SwaOpen c w req left chunk host swaHost)
    (hlt : req.prefixLen + host < req.fillLen) (hpos : 0 < chunk) : c.memory.pageSize ≤ left := by
  rcases h with hneed | ⟨-, hroom⟩
  · have hn : 0 ≤ c.memory.ceil (req.fillLen - (req.prefixLen + host)) :=
      ceilPagedTokens_nonneg c.memory.page_pos' (by linarith)
    have := page_le_swaTokens c w swaHost hn
      (fun l (hl : some chunk = some l) => by cases hl; exact hpos.le) (c.swaNewTokens_nonneg req)
    rw [swaNeed] at hneed
    linarith
  · have := page_le_swaTokens c w swaHost (le_refl 0)
      (fun _ (hl : none = some _) => by cases hl) (c.swaNewTokens_nonneg req)
    have := c.memory.page_pos'
    rw [swaHeadroom] at hroom
    linarith

lemma answered_admitLocked_iff (hw : c.memory.swa = some w)
    (hchunk : s.remChunkTokens = some chunk) (hpos : 0 < chunk) (hidle : c.swaWaitIsFutile = true)
    (hempty : s.canRunList = [])
    (htotal : (c.totalTokens req : ℚ) < c.memory.remainingTotal (s.lock a).budget) :
    Answered req ((s.lock a).admitLocked c req a align chunked limit) ↔
      Admissible c w s req a chunk align chunked := by
  obtain ⟨hyes, hno⟩ := selectPrefillAdmission_idle (s := s.lock a) req
    req.hostHitLength req.swaHostHitLength align chunked hw hchunk hempty htotal
  rw [admitLocked, Admissible]
  by_cases hsel : Selects c w s req (s.lock a).budget.pools chunk req.hostHitLength
      req.swaHostHitLength align chunked
  · obtain ⟨adm, hadm⟩ := hyes hsel
    have hgate := applySwaTokenGate_idle (s := s.lock a) req hw hchunk hpos hidle
      (realInputTokens_nonneg c req) limit
    have hleft : c.memory.remainingSwa (s.lock a).budget =
        (s.lock a).budget.pools.swaAvailable + (s.lock a).budget.pools.swaEvictable -
          s.budget.swaOffset := by
      rw [Memory.remainingSwa, hw]
      rfl
    have hpage := hsel.1.page_le (by exact_mod_cast req.matched_lt) hpos
    rw [if_neg (not_lt.2 (by rw [hleft]; exact hpage))] at hgate
    obtain ⟨l, hl⟩ := hgate
    obtain ⟨-, -, hstart, hext, -⟩ :=
      selectPrefillAdmission_ok (by exact_mod_cast req.matched_lt) hadm
    rw [hadm, hl]
    dsimp only
    cases hallows : a.allowsPrefill with
    | false =>
      exact iff_of_false (not_answered_verdict (by decide) hempty) fun h => by cases h.2.1
    | true =>
      rw [if_neg (by simp)]
      by_cases hneeds : req.needsHostLoadBack = true
      · rw [if_pos hneeds]
        refine (answered_loadBack_iff (s := s.lock a) hw hchunk hempty hstart hext).trans ?_
        exact ⟨fun h => ⟨hsel, rfl, fun _ => h⟩, fun h => h.2.2 hneeds⟩
      · rw [if_neg hneeds]
        have hhost : req.hostHitLength = 0 := by
          simp_all [Req.needsHostLoadBack]
        refine (answered_commit_iff c (s.lock a) req req.prefixLen adm hempty
          (Int.natCast_nonneg _) ?_).trans ?_
        · rw [hstart, hhost, Nat.cast_zero, add_zero]
        · exact iff_of_true hext ⟨hsel, rfl, fun h => absurd h hneeds⟩
  · obtain ⟨verdict, hne, herr⟩ := hno hsel
    rw [herr]
    exact iff_of_false (not_answered_verdict hne hempty) fun h => hsel h.1

lemma answered_ignoreEos_iff (hw : c.memory.swa = some w)
    (hchunk : s.remChunkTokens = some chunk) (hpos : 0 < chunk) (hempty : s.canRunList = [])
    (htotal : (c.memory.ceil req.candExtendInputLen : ℚ) ≤ c.memory.remainingTotal s.budget) :
    Answered req (s.addOneReqIgnoreEos c req a.allowsPrefill) ↔
      AdmissibleIgnoreEos c w s req a chunk := by
  have htile : ∀ n, (s.tracked c req).tileStops c n = false := fun n => by
    rw [tileStops, tracked, hempty]
    rfl
  have hfits : c.memory.canAllocatePrefill s.budget (c.memory.ceil req.candExtendInputLen)
      req.candExtendInputLen (c.swaNewTokens req) s.remChunkTokens = true ↔
        c.memory.ceil req.candExtendInputLen ≤ c.memory.remainingCurrent s.budget ∧
          c.memory.swaTokens w req.candExtendInputLen (c.swaNewTokens req) (some chunk) 0 ≤
            c.memory.remainingSwa s.budget := by
    simp_all [Memory.canAllocatePrefill, Bool.and_eq_true, Int.cast_le]
  rw [AdmissibleIgnoreEos, ← hfits, addOneReqIgnoreEos]
  cases hcan : c.memory.canAllocatePrefill s.budget (c.memory.ceil req.candExtendInputLen)
      req.candExtendInputLen (c.swaNewTokens req) s.remChunkTokens with
  | false =>
    exact iff_of_false (not_answered_verdict (by decide) hempty) fun h => by cases h.1
  | true =>
    rw [if_neg (by simp), if_neg (by simp [hw])]
    cases hallows : a.allowsPrefill with
    | false =>
      exact iff_of_false (not_answered_verdict (by decide) hempty) fun h => by cases h.2.1
    | true =>
      rw [if_neg (by simp)]
      change Answered req ((s.tracked c req).commitIgnoreEos c req) ↔ _
      rw [commitIgnoreEos, show (s.tracked c req).remChunkTokens = some chunk from hchunk]
      dsimp only
      rw [all_some, htile, htile, if_neg Bool.false_ne_true, getD_some,
        if_neg (not_le.2 hpos), if_neg Bool.false_ne_true]
      by_cases hwhole : req.candExtendInputLen ≤ chunk
      · rw [if_pos (by simpa using hwhole)]
        refine (answered_joined_iff (s := s.tracked c req) hempty (.of_append ..)).trans ?_
        exact iff_of_true req.candExtendInputLen_pos ⟨rfl, rfl, .inl hwhole⟩
      · rw [if_neg (by simpa using hwhole)]
        by_cases hstart : req.prefixLen = 0
        · rw [if_neg (not_not_intro hstart)]
          refine (answered_joined_iff (s := s.tracked c req) hempty (.of_append ..)).trans ?_
          exact iff_of_true hpos ⟨rfl, rfl, .inr hstart⟩
        · grind [not_answered_error]

lemma remainingTotal_lock_le (c : Config) (s : Adder) (a : Answers) :
    c.memory.remainingTotal (s.lock a).budget ≤ c.memory.remainingTotal s.budget := by
  have hle : c.memory.availableAndEvictable (s.lock a).budget.pools ≤
      c.memory.availableAndEvictable s.budget.pools := by
    simp only [Memory.availableAndEvictable, lock]
    split <;> omega
  have hcast : (c.memory.availableAndEvictable (s.lock a).budget.pools : ℚ) ≤
      c.memory.availableAndEvictable s.budget.pools := by exact_mod_cast hle
  exact sub_le_sub_right hcast _

/-- **When a request on an idle sliding-window pool is answered.**  The chunk budget is positive,
nothing runs, the batch is empty and the full pool has room for the request with its prefix locked.
Then the request is admitted with something to compute, or marked as aborted, exactly if the limit
on the number of requests is not zero and

* a request of known length without a prefix cache is `AdmissibleIgnoreEos`;
* any other request finds less than a page left, or is `Admissible`. -/
theorem idle_swa_answer_iff (c : Config) (w : SwaPool) (s : Adder) (req : Req) (a : Answers)
    (chunk : ℤ) (align : Option ℕ+) (chunked : Bool) (hw : c.memory.swa = some w)
    (hchunk : s.remChunkTokens = some chunk) (hpos : 0 < chunk)
    (hidle : ∀ r ∈ c.runningReqs, r.finished = true) (hempty : s.canRunList = [])
    (htotal : (c.totalTokens req : ℚ) < c.memory.remainingTotal (s.lock a).budget) :
    Answered req (s.addOneReq c req a chunked align) ↔ c.prefillMaxRequests ≠ some 0 ∧
        if req.ignoreEos = true ∧ c.treeCacheDisabled = true then
          AdmissibleIgnoreEos c w s req a chunk
        else c.memory.remainingSwa s.budget < c.memory.pageSize ∨
          Admissible c w s req a chunk align chunked := by
  have hfutile : c.swaWaitIsFutile = true := List.all_eq_true.2 hidle
  have hunlocked : c.memory.remainingTotal (s.lock a).budget ≤ c.memory.remainingTotal s.budget :=
    remainingTotal_lock_le c s a
  have hmax : (c.prefillMaxRequests.any fun x => decide (x ≤ s.canRunList.length)) = true ↔
      c.prefillMaxRequests = some 0 := by
    rw [hempty]
    cases c.prefillMaxRequests <;> simp
  rw [addOneReq]
  by_cases hzero : c.prefillMaxRequests = some 0
  · rw [if_pos (hmax.2 hzero)]
    exact iff_of_false (not_answered_verdict (by decide) hempty) fun h => h.1 hzero
  · rw [if_neg (fun h => hzero (hmax.1 h)), and_iff_right hzero]
    by_cases hignore : req.ignoreEos = true ∧ c.treeCacheDisabled = true
    · rw [if_pos (by simpa using hignore), if_pos hignore]
      refine answered_ignoreEos_iff hw hchunk hpos hempty ?_
      have hceil : c.memory.ceil req.candExtendInputLen ≤ c.totalTokens req := by
        have := c.memory.ceil_lt req.candExtendInputLen
        have := c.swaNewTokens_nonneg req
        rw [Config.totalTokens]
        linarith
      have hcast : (c.memory.ceil req.candExtendInputLen : ℚ) ≤ c.totalTokens req := by
        exact_mod_cast hceil
      linarith
    · rw [if_neg (by simpa using hignore), if_neg hignore,
        if_neg (not_le.2 (htotal.trans_le hunlocked))]
      have hgate := applySwaTokenGate_idle req hw hchunk hpos hfutile
        (realInputTokens_nonneg c req) s.remChunkTokens
      by_cases hpage : c.memory.remainingSwa s.budget < c.memory.pageSize
      · rw [if_pos hpage] at hgate
        obtain ⟨f, hf⟩ := hgate
        rw [hf]
        exact iff_of_true ⟨_, rfl, .inr ⟨rfl, f, rfl⟩⟩ (.inl hpage)
      · grind [answered_admitLocked_iff]

/-! ### An idle pool, and a request whose own prefix fills its window -/

/-- A sliding-window pool of ten tokens with a window of four; nothing runs. -/
def idleConfig : Config where
  memory := { pageSize := 1, swa := some ⟨10, some 4, false⟩, page_pos := Nat.one_pos }
  clipMaxNewTokens := 4096
  newTokenRatio := 1
  exactChunkFill := false
  shortestPrefillFirst := false
  treeCacheDisabled := false
  boundedReplay := false
  prefillMaxRequests := none
  runningReqs := []
  tilesExceed := fun _ _ => false

/-- All ten tokens are free, or hold a window that nobody locks. -/
def idleStart : Adder := Adder.start idleConfig ⟨100, 4, 6, 4⟩ 100 (some 100) 0

/-- A request for one token with a cached prefix of four tokens and `n` tokens to compute. -/
def resumed (n : ℕ) (h : 0 < n) : Req where
  originInputLen := 4 + n
  outputLen := 0
  fillLen := 4 + n
  prefixLen := 4
  hostHitLength := 0
  swaHostHitLength := 0
  maxNewTokens := 1
  ignoreEos := false
  finished := false
  replays := false
  toFinish := none
  matched_lt := by omega

/-- The lock on its prefix pins four tokens of each pool. -/
def pinsPrefix : Answers := ⟨4, 4, true, none⟩

/-- A request that needs eight tokens, of a pool of ten, waits: six are left when its own prefix is
locked, and nothing that runs could give more. -/
theorem idle_request_waits :
    ((∀ r ∈ idleConfig.runningReqs, r.finished = true) ∧ idleStart.canRunList = [] ∧
      idleStart.remChunkTokens = some 100 ∧ (idleConfig.totalTokens (resumed 7 (by decide)) : ℚ) <
        idleConfig.memory.remainingTotal (idleStart.lock pinsPrefix).budget) ∧
    (idleStart.addOneReq idleConfig (resumed 7 (by decide)) pinsPrefix false none).toOption =
      some ⟨.noToken, resumed 7 (by decide), idleStart⟩ := by
  decide +kernel

/-- A request that needs four tokens is answered. -/
theorem idle_swa_answer_short :
    Answered (resumed 2 (by decide))
      (idleStart.addOneReq idleConfig (resumed 2 (by decide)) pinsPrefix false none) := by
  refine (idle_swa_answer_iff idleConfig ⟨10, some 4, false⟩ idleStart (resumed 2 (by decide))
    pinsPrefix 100 none false rfl rfl (by decide) (by decide) rfl (by decide +kernel)).2
    ⟨by decide, ?_⟩
  rw [if_neg (by decide)]
  exact .inr ⟨⟨.inl (by decide +kernel), .inl (by decide +kernel)⟩, rfl,
    fun h => absurd h (by decide)⟩

end Sglang.Prefill
