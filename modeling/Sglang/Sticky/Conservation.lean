import Sglang.Sticky.Serving

/-!
# Live hits and conserved slots

The events of `Serving.step` one by one, each against the invariant `ServingOk`, and what follows
for whole runs.

A page leaves the books in one place only, a lookup that adopts more of a saved conversation than a
row holds (`servingOk_step`), so `hit_returns_live_slots` needs the pages that are left to be
distinct, and `slots_are_conserved`, where no adoption is that long, that they are the pages of the
start.

* `rematch_returns_freed_slots`: without the condition a hit can return slots that were freed.
* `slots_freed_twice_or_lost`: and slots can be free twice, or be lost.
-/

namespace Sglang.Sticky
open Lib List Option Cache Serving

variable {Key Rows Ring : Type} {c c' : Cache Key Rows Ring} {pages : List Nat}

/-! ## Events that leave the pin alone -/

variable {ref : Nat}

lemma PinCovered.congr (h : PinCovered c ref) (hidx : (c'.heap ref).reqPoolIdx ≠ none)
    (hlen : (c.heap ref).kvAllocatedLen ≤ (c'.heap ref).kvAllocatedLen)
    (hids : c'.lastIds = c.lastIds)
    (hcuts : ∀ cut ∈ c'.cuts, cut ∈ c.cuts ∨ cut ≤ 1 ∨ cut ≤ (c'.heap ref).kvAllocatedLen) :
    PinCovered c' ref := by
  obtain ⟨-, ids, hlast, hpos, hle⟩ := h
  refine ⟨hidx, ids, hids.trans hlast, fun hne => lt_of_lt_of_le (hpos hne) hlen,
    fun cut hcut hlt => ?_⟩
  rcases hcuts cut hcut with hold | hnew
  · exact (hle cut hold hlt).imp_right fun h => le_trans h hlen
  · exact hnew

/-- The pin is covered as long as its record, its ids and its cuts stay. -/
lemma PinCovered.same (h : PinCovered c ref) (hheap : c'.heap ref = c.heap ref)
    (hids : c'.lastIds = c.lastIds) (hcuts : c'.cuts = c.cuts) : PinCovered c' ref :=
  h.congr (hheap ▸ h.holds) (hheap ▸ le_refl _) hids fun _ hcut => .inl (hcuts ▸ hcut)

variable {n : Nat}

lemma CutsWithin.congr (h : CutsWithin c n) (hids : c'.lastIds = c.lastIds)
    (hcuts : ∀ cut ∈ c'.cuts, cut ∈ c.cuts ∨ cut ≤ n) : CutsWithin c' n := by
  intro cut hcut hle
  rcases hcuts cut hcut with hold | hn
  · exact h cut hold fun ids hi => hle ids (hids.trans hi)
  · exact .inr hn

/-- Nothing changed but what lies past the records in use. -/
structure Frame (c c' : Cache Key Rows Ring) : Prop where
  slot : c'.slot = c.slot
  lastIds : c'.lastIds = c.lastIds
  cuts : c'.cuts = c.cuts
  nextKv : c.nextKv ≤ c'.nextKv
  heap : ∀ a < c.nextKv, c'.heap a = c.heap a
  fresh : ∀ a, c.nextKv ≤ a → (c'.heap a).reqPoolIdx = none

namespace Frame
section
variable (h : Frame c c')

include h

lemma holds {a : Nat} (ha : (c'.heap a).reqPoolIdx ≠ none) : (c.heap a).reqPoolIdx ≠ none := by
  grind [h.heap, h.fresh]

lemma pinCovered (hacc : Accounts c pages) {ref : Nat} (hp : PinCovered c ref) :
    PinCovered c' ref :=
  hp.same (h.heap ref (hacc.fresh ref hp.holds)) h.lastIds h.cuts

lemma rest (hacc : Accounts c pages) (hrest : Rest c) : Rest c' := by
  refine ⟨fun a ha => h.slot.trans (hrest.owners a (h.holds ha)), fun hs => ?_, fun ref hs => ?_⟩
  · rw [h.lastIds, h.cuts]
    exact hrest.unpinned (h.slot.symm.trans hs)
  · exact h.pinCovered hacc (hrest.pinned ref (h.slot.symm.trans hs))

lemma cutsWithin {n : Nat} (hc : CutsWithin c n) : CutsWithin c' n :=
  hc.congr h.lastIds fun _ hcut => .inl (h.cuts ▸ hcut)

lemma matched {req : Req} (hm : Matched c req) : Matched c' req := by
  refine ⟨lt_of_lt_of_le hm.lt h.nextKv, ?_, ?_, ?_⟩
  · rw [h.slot]
    exact hm.health
  · rw [h.slot]
    exact hm.other
  · rw [h.slot, h.heap _ hm.lt]
    exact fun hs => h.cutsWithin (hm.cuts hs)

lemma running (hacc : Accounts c pages) {req : Req} (hr : Running c req) : Running c' req := by
  refine ⟨lt_of_lt_of_le hr.lt h.nextKv, fun a ha => ?_, ?_, fun ref hs => ?_, ?_, ?_,
    fun hh n => ?_⟩
  · grind [h.slot, hr.owners, h.holds]
  · rw [h.slot, h.lastIds]
    exact hr.unpinned
  · exact h.pinCovered hacc (hr.pinned ref (h.slot.symm.trans hs))
  · rw [h.slot, h.cuts]
    exact hr.health
  · rw [h.slot]
    exact hr.other
  · rw [h.heap _ hr.lt]
    exact fun hn => h.cutsWithin (hr.cuts hh n hn)

lemma stage (hacc : Accounts c pages) {turn : Option Req} {started : Bool}
    (hs : Stage c turn started) : Stage c' turn started := by
  cases hs with
  | idle hrest => exact .idle (h.rest hacc hrest)
  | matched req hrest hreq => exact .matched req (h.rest hacc hrest) (h.matched hreq)
  | running req hreq => exact .running req (h.running hacc hreq)

end

lemma newRecord (hacc : Accounts c pages) :
    Frame c { c.setKv c.nextKv {} with nextKv := c.nextKv + 1 } := by
  refine ⟨rfl, rfl, rfl, Nat.le_succ _, fun a ha => ?_, fun a ha => ?_⟩
  · exact heap_setKv_of_ne _ _ (ne_of_lt ha)
  · by_cases hne : a = c.nextKv
    · grind [heap_setKv_self]
    · show ((c.setKv c.nextKv {}).heap a).reqPoolIdx = none
      rw [heap_setKv_of_ne _ _ hne]
      by_contra hholds
      have := hacc.fresh a hholds
      omega

lemma disk (hacc : Accounts c pages) (session : SessionState Key Rows Ring) :
    Frame c { c with session } := by
  refine ⟨rfl, rfl, rfl, le_refl _, fun _ _ => rfl, fun a ha => ?_⟩
  by_contra hholds
  have : a < c.nextKv := hacc.fresh a hholds
  omega

end Frame

/-! ## Running -/

variable {req : Req}

lemma running_grow {seqLen committedLen : Nat} (h : Accounts c pages) (hr : Running c req)
    (hcom : committedLen ≤ seqLen) (hok : c.growRow req.kv seqLen committedLen = some c') :
    Accounts c' pages ∧ Running c' req := by
  obtain ⟨hacc, honly, hlen, hholds, hle⟩ := h.growRow hr.lt hcom hok
  have hs := SamePin.growRow hok
  refine ⟨hacc, ⟨?_, fun a ha => ?_, ?_, fun ref href => ?_, ?_, ?_, fun hh n hn => ?_⟩⟩
  · rw [honly.nextKv]
    exact hr.lt
  · grind [honly.heap, hs.slot, hr.owners]
  · rw [hs.slot, hs.lastIds]
    exact hr.unpinned
  · have hpin := hr.pinned ref (hs.slot.symm.trans href)
    by_cases heq : ref = req.kv
    · subst heq
      exact hpin.congr hholds (hlen ▸ hle hpin.holds) hs.lastIds
        fun _ hcut => .inl (hs.cuts ▸ hcut)
    · exact hpin.same (honly.heap ref heq) hs.lastIds hs.cuts
  · rw [hs.slot, hs.cuts]
    exact hr.health
  · rw [hs.slot]
    exact hr.other
  · have hn' : seqLen ≤ n := hlen ▸ hn hholds
    exact (hr.cuts hh n fun hold => le_trans (hle hold) hn').congr hs.lastIds
      fun _ hcut => .inl (hs.cuts ▸ hcut)

variable {req' : Req}

/-- What a request is called and where its record lies is all that counts. -/
lemma Running.sameRecord (h : Running c req) (hkv : req'.kv = req.kv)
    (hrid : req'.rid = req.rid) : Running c req' := by
  have hh : req'.isHealthCheck = req.isHealthCheck := by
    rw [Req.isHealthCheck, Req.isHealthCheck, hrid]
  refine ⟨hkv ▸ h.lt, hkv ▸ h.owners, h.unpinned, h.pinned, ?_, ?_, ?_⟩
  · rw [hh, hkv]
    exact h.health
  · rw [hh, hkv]
    exact h.other
  · rw [hh, hkv]
    exact h.cuts

/-- A stop within the row is recorded; that of a health check is at most `1`. -/
lemma running_unfinished {stop : Nat} (hr : Running c req) (hstop : req.extendEnd = some stop)
    (hle : stop ≤ (c.heap req.kv).kvAllocatedLen) (hone : req.isHealthCheck = true → stop ≤ 1)
    (hok : c.cacheUnfinishedReq req = .ok (c', req')) :
    (∃ cuts, c' = { c with cuts }) ∧ Running c' req' := by
  obtain ⟨cuts, rfl, hcuts, hholds, hkv, hrid⟩ : ∃ cuts, c' = { c with cuts } ∧
      (∀ cut ∈ cuts, cut ∈ c.cuts ∨ cut = stop) ∧ (c.heap req.kv).reqPoolIdx ≠ none ∧
      req'.kv = req.kv ∧ req'.rid = req.rid := by
    simp only [cacheUnfinishedReq] at hok
    split at hok
    · rename_i idx _ hidx _
      cases hok
      split at hidx
      · exact ⟨c.cuts, by simp_all, fun cut hcut => .inl hcut, by rw [hidx]; simp, rfl, rfl⟩
      rename_i hne
      refine ⟨_, by rw [if_neg hne], fun cut hcut => ?_, ?_, rfl, rfl⟩
      · rw [hstop] at hcut
        exact (mem_noteCut hcut).imp (fun hold => hold.1) fun hnew => hnew.1
      · grind
    · cases hok
  suffices hr' : Running { c with cuts } req from ⟨⟨cuts, rfl⟩, hr'.sameRecord hkv hrid⟩
  refine ⟨hr.lt, hr.owners, hr.unpinned, fun ref href => ?_, fun hh => ?_, hr.other,
    fun hh n hn => ?_⟩
  · refine (hr.pinned ref href).congr (hr.pinned ref href).holds (le_refl _) rfl
      fun cut hcut => (hcuts cut hcut).imp_right fun he => ?_
    cases hh : req.isHealthCheck with
    | true => exact .inl (he ▸ hone hh)
    | false =>
      grind [hr.other]
  · exact ⟨(hr.health hh).1, fun hs cut hcut =>
      (hcuts cut hcut).elim ((hr.health hh).2 hs cut) fun he => he ▸ hone hh⟩
  · exact (hr.cuts hh n hn).congr rfl fun cut hcut =>
      (hcuts cut hcut).imp_right fun (he : cut = stop) => he ▸ le_trans hle (hn hholds)

/-! ## Leaving -/

lemma Accounts.takeOver (h : Accounts c pages) (ref : Nat) : Accounts (c.takeOver ref) pages :=
  h.newRecord.congr rfl rfl rfl rfl

variable {a : Nat}

lemma heap_takeOver (ha : a < c.nextKv) (ref : Nat) : (c.takeOver ref).heap a = c.heap a :=
  heap_setKv_of_ne c {} (ne_of_lt ha)

lemma noRow_takeOver (ha : (c.heap a).reqPoolIdx = none) :
    ((c.takeOver ref).heap a).reqPoolIdx = none := by
  by_cases hne : a = c.nextKv
  · rw [hne]
    exact congrArg ReqKvInfo.reqPoolIdx (heap_setKv_self c c.nextKv {})
  · exact (heap_setKv_of_ne c {} hne) ▸ ha

/-- A request other than a health check that leaves without a pin leaves nothing pinned. -/
lemma clearPin_of_dropForAbort (hs : c.slot = none ∨ c.slot = some req.kv)
    (hok : c.dropForAbort req = .ok c') : c' = c.clearPin := by
  grind [dropForAbort, dropSlot, releaseRecord]

variable {ids : List Token}

/-- The slot has taken over the only row there is, and the row covers the pin. -/
lemma rest_pin (hslot : c'.slot = some ref) (hholds : (c.heap ref).reqPoolIdx ≠ none)
    (howners : ∀ a ≠ ref, (c.heap a).reqPoolIdx = none)
    (hheap : ∀ a ≠ ref, c'.heap a = (c.takeOver ref).heap a)
    (hidx : (c'.heap ref).reqPoolIdx = (c.heap ref).reqPoolIdx)
    (hlen : (c'.heap ref).kvAllocatedLen = (c.heap ref).kvAllocatedLen)
    (hids : c'.lastIds = some ids) (hpos : ids ≠ [] → 0 < (c.heap ref).kvAllocatedLen)
    (hcuts : ∀ cut ∈ c'.cuts, cut < ids.length → cut ≤ 1 ∨ cut ≤ (c.heap ref).kvAllocatedLen) :
    Rest c' := by
  refine ⟨fun a ha => ?_, fun hnone => (by cases hslot.symm.trans hnone), fun r hr => ?_⟩
  · rw [hslot, some_inj]
    by_contra hne
    rw [hheap a (Ne.symm hne)] at ha
    exact ha (noRow_takeOver (howners a (Ne.symm hne)))
  · rw [hslot, some_inj] at hr
    subst hr
    exact ⟨hidx ▸ hholds, ids, hids, hlen ▸ hpos, hlen ▸ hcuts⟩

lemma ne_of_holds_setKv {kv : ReqKvInfo} (ha : ((c.setKv ref kv).heap a).reqPoolIdx ≠ none)
    (hnone : kv.reqPoolIdx = none) : a ≠ ref ∧ (c.heap a).reqPoolIdx ≠ none := by
  grind [heap_setKv_self, heap_setKv_of_ne]

/-- If a request other than a health check runs, only its record has a row. -/
lemma Running.alone (h : Running c req) (hreq : req.isHealthCheck = false) (hne : a ≠ req.kv) :
    (c.heap a).reqPoolIdx = none := by
  by_contra ha
  rcases h.owners a ha with hs | hs
  · grind [h.other]
  · exact hne hs

variable {idx : Nat} {c₁ c₂ c₃ : Cache Key Rows Ring}

lemma rest_freed {c0 : Cache Key Rows Ring} (h : Accounts c pages) (hr : Running c req)
    (hidx : (c.heap req.kv).reqPoolIdx = some idx) (h0 : (req.isHealthCheck = true ∧ c0 = c) ∨
      (req.isHealthCheck = false ∧ req.finishAbort = true ∧ c.dropForAbort req = .ok c0))
    (h1 : c0.innerFinished req (c.heap req.kv).kvCommittedLen = .ok c₁)
    (h2 : c₁.freePastOwned req.kv (c.heap req.kv).kvCommittedLen = .ok c₂)
    (h3 : c₂.freePoolRow req.kv = .ok c₃)
    (hc : c' = c₃.setKv req.kv { c₃.heap req.kv with kvAllocatedLen := 0, swaEvictedSeqlen := 0 }) :
    Accounts c' pages ∧ Rest c' := by
  have hs := (((SamePin.innerFinished h1).trans (.freePastOwned h2)).trans
    (.freePoolRow h3)).trans (.setKv _ req.kv
      { c₃.heap req.kv with kvAllocatedLen := 0, swaEvictedSeqlen := 0 })
  rw [← hc] at hs
  rcases h0 with ⟨hh, rfl⟩ | ⟨hh, -, hdrop⟩
  · obtain ⟨hacc, honly, hnone⟩ := h.releaseRow hidx h1 h2 h3
    rw [← hc] at hacc
    obtain ⟨hne, hunp⟩ := hr.health hh
    refine ⟨hacc, ⟨fun a ha => ?_, fun hnone => ?_, fun ref href => ?_⟩⟩
    · rw [hc] at ha
      obtain ⟨hne, ha⟩ := ne_of_holds_setKv ha hnone
      rw [honly.heap a hne] at ha
      exact hs.slot.trans ((hr.owners a ha).resolve_right hne)
    · rw [hs.slot] at hnone
      rw [hs.lastIds, hs.cuts]
      exact ⟨hr.unpinned hnone, hunp hnone⟩
    · rw [hs.slot] at href
      have hneq : ref ≠ req.kv := fun heq => hne (heq ▸ href)
      refine (hr.pinned ref href).same ?_ hs.lastIds hs.cuts
      rw [hc, heap_setKv_of_ne _ _ hneq, honly.heap ref hneq]
  · obtain rfl := clearPin_of_dropForAbort (hr.other hh) hdrop
    have hacc : Accounts c.clearPin pages := h.congr rfl rfl rfl rfl
    obtain ⟨hacc, honly, hnone⟩ := hacc.releaseRow hidx h1 h2 h3
    rw [← hc] at hacc
    have hu := hs.unpinned (unpinned_clearPin c)
    refine ⟨hacc, ⟨fun a ha => ?_, fun _ => ⟨hu.lastIds, by rw [hu.cuts]; simp⟩,
      fun ref href => (by cases hu.slot.symm.trans href)⟩⟩
    rw [hc] at ha
    obtain ⟨hne, ha⟩ := ne_of_holds_setKv ha hnone
    rw [honly.heap a hne] at ha
    exact absurd (hr.alone hh hne) ha

lemma rest_aborted (h : Accounts c pages) (hr : Running c req)
    (hidx : (c.heap req.kv).reqPoolIdx = some idx) (hreq : req.isHealthCheck = false)
    (hpos : 0 < n) (hn : n ≤ (c.heap req.kv).kvAllocatedLen)
    (h1 : c.releaseForeignSlot req = .ok c₁) (h2 : c₁.freeTail req.kv n = .ok c₂)
    (hc : c₃ = c₂.setKv req.kv { c₂.heap req.kv with cacheProtectedLen := 0 }) :
    Accounts ((c₃.takeOver req.kv).pinAbortedIds req' ids n) pages ∧
      Rest ((c₃.takeOver req.kv).pinAbortedIds req' ids n) := by
  have hc1 : c₁ = c := by
    rw [releaseForeignSlot, if_neg, Except.ok.injEq] at h1
    · exact h1.symm
    · rintro ⟨hsome, hne⟩
      rw [(hr.other hreq).resolve_right hne] at hsome
      cases hsome
  subst hc1
  obtain ⟨hacc, honly, -, hidx2, hlen⟩ := h.freeTail hidx hn h2
  have hlt : req.kv < c₂.nextKv := honly.nextKv ▸ hr.lt
  have hrec := hacc.record req.kv
  have hacc3 : Accounts c₃ pages := hc ▸ hacc.setKv hlt rfl rfl hrec.evicted rfl
    (hrec.committed (by rw [hidx2]; simp))
  have hset : OnlyAt req.kv c₂ c₃ := hc ▸ .setKv _ _ _
  have hkv : c₃.heap req.kv = { c₂.heap req.kv with cacheProtectedLen := 0 } := by
    rw [hc, heap_setKv_self]
  have hheap := heap_takeOver (hset.nextKv ▸ hlt : req.kv < c₃.nextKv) req.kv
  have hlen3 : (c₃.heap req.kv).kvAllocatedLen = n := by rw [hkv]; exact hlen
  refine ⟨(hacc3.takeOver req.kv).congr rfl rfl rfl rfl, ?_⟩
  refine rest_pin rfl ?_ (fun a ha => ?_) (fun _ _ => rfl) (congrArg ReqKvInfo.reqPoolIdx hheap)
    (congrArg ReqKvInfo.kvAllocatedLen hheap) rfl (fun _ => hlen3 ▸ hpos) fun cut hcut _ => .inr ?_
  · rw [hkv]
    rw [hidx2]
    simp
  · rw [hset.heap a ha, honly.heap a ha]
    exact hr.alone hreq ha
  · rw [hlen3]
    rcases mem_abortedCuts hcut with rfl | ⟨-, -, hle, -⟩
    · exact le_refl _
    · exact hle

/-- A normal finish cuts the row to the finished ids.  It may be shorter than they are. -/
lemma rest_finished {req1 : Req} (h : Accounts c pages) (hr : Running c req)
    (hidx : (c.heap req.kv).reqPoolIdx = some idx) (hrel : (c.heap req.kv).isKvReleased = false)
    (hreq : req.isHealthCheck = false)
    (hids : ids.length ≤ req.originInputIds.length + finishedLenOf req)
    (h1 : c.trimOvershoot req (finishedLenOf req) = .ok (c₁, req1)) :
    Accounts ((c₁.takeOver req.kv).pinIds req' req.kv ids) pages ∧
      Rest ((c₁.takeOver req.kv).pinIds req' req.kv ids) := by
  obtain ⟨hacc, honly, hidx1, hlen⟩ := h.trimOvershoot hidx h1
  have hs := (SamePin.trimOvershoot h1).1
  have hlt : req.kv < c₁.nextKv := honly.nextKv ▸ hr.lt
  have hheap := heap_takeOver hlt req.kv
  have hacc2 : Accounts ((c₁.takeOver req.kv).setKv req.kv { c₁.heap req.kv with
      kvCommittedLen := min ids.length (c₁.heap req.kv).kvAllocatedLen
      cacheProtectedLen := 0 }) pages :=
    (hacc.takeOver req.kv).setKv (Nat.lt_succ_of_lt hlt) (by rw [hheap]) (by rw [hheap])
      (hacc.record req.kv).evicted rfl (min_le_right _ _)
  rw [pinIds, hheap]
  refine ⟨hacc2.congr rfl rfl rfl rfl, rest_pin rfl (by rw [hidx1]; simp) (fun a ha => ?_)
    (fun a ha => heap_setKv_of_ne _ _ ha) ?_ ?_ rfl (fun hne => ?_) fun cut hcut hcl => ?_⟩
  · rw [honly.heap a ha]
    exact hr.alone hreq ha
  · simp
  · simp
  · have hpos : 0 < (c.heap req.kv).kvAllocatedLen := by
      rw [ReqKvInfo.isKvReleased, (h.record req.kv).evicted] at hrel
      simpa [pos_iff_ne_zero] using hrel
    have := length_pos_of_ne_nil hne
    omega
  · rcases mem_noteCut hcut with ⟨hold, hprev⟩ | ⟨heq, -, -⟩
    · have hle := hr.cuts hreq _ (fun _ => le_refl _) cut (hs.cuts ▸ hold) fun prev hp => by
        obtain ⟨hlen, htake⟩ := hprev prev (hs.lastIds.trans hp)
        have := congrArg List.length htake
        rw [length_take, length_take] at this
        omega
      omega
    · grind

/-- **A request leaves**: its row is given back or becomes the pin. -/
theorem rest_release (h : Accounts c pages) (hr : Running c req)
    (hok : c.releaseKvCache req = .ok (c', req')) : Accounts c' pages ∧ Rest c' := by
  obtain ⟨hholds, hrel, hcase⟩ := releaseKvCache_cases hok
  obtain ⟨idx, hidx⟩ := ne_none_iff_exists'.1 hholds
  cases hcase with
  | freed h0 h1 h2 h3 => exact rest_freed h hr hidx h0 h1 h2 h3 rfl
  | @aborted _ _ _ limit hreq _ hlimit hpos h1 h2 =>
    have hpin := (abortedPrefixLen_spec c.cuts limit req.extendEnd).resolve_left (by omega)
    exact rest_aborted h hr hidx hreq hpos (by omega) h1 h2 rfl
  | finished hreq _ h1 =>
    obtain ⟨_, h1⟩ := h1
    refine rest_finished h hr hidx hrel hreq ?_ h1
    rw [length_append, length_take]
    omega

/-! ## Steps and runs -/

variable {v v' : Serving Key Rows Ring}

lemma servingOk_release (h : Accounts v.cache pages) (hok : v.release req = some v')
    (hr : Running v.cache req) : ServingOk v' pages := by
  rw [release] at hok
  split at hok
  · cases hok
  rename_i c req' hc
  rw [some_inj] at hok
  obtain ⟨hacc, hrest⟩ := rest_release h hr hc
  exact hok ▸ ⟨hacc, .idle hrest⟩

section
variable [DecidableEq Key] {cfg : SessionConfig Key}

/-- Where a lookup is allowed, it keeps the invariant, and the books but for what it loses. -/
lemma servingOk_lookup {req : Req} {limit : Option Nat} (h : ServingOk v pages)
    (hcov : Covered v (.lookup req limit)) (hok : v.step cfg (.lookup req limit) = some v') :
    ∃ pages' lost, (pages' ++ lost).Perm pages ∧
      (CoveredAndFits cfg v (.lookup req limit) → lost = []) ∧ ServingOk v' pages' := by
  obtain ⟨hacc, hstage⟩ := h
  rw [step] at hok
  split at hok
  · cases hok
  rename_i hguard
  rw [not_or, not_or, not_le, not_and] at hguard
  obtain ⟨hidle, hlt, hhc⟩ := hguard
  rw [Bool.not_eq_true] at hidle
  rw [hidle] at hstage
  split at hok
  · cases hok
  rename_i c req' res hc
  rw [some_inj] at hok
  obtain ⟨pages', lost, hperm, hlost, hacc', hrest, hm⟩ :=
    rest_lookup hacc hstage.rest hlt hhc hcov hc
  exact ⟨pages', lost, hperm, fun hfit => hlost hfit.2, hok ▸ ⟨hacc', .matched req' hrest hm⟩⟩

/-- **One event** keeps the invariant.  Only a lookup that adopts more than a row holds can lose
pages. -/
theorem servingOk_step {e : ServeEvent Key Rows Ring} (h : ServingOk v pages) (hcov : Covered v e)
    (hok : v.step cfg e = some v') :
    ∃ pages' lost, (pages' ++ lost).Perm pages ∧ (CoveredAndFits cfg v e → lost = []) ∧
      ServingOk v' pages' := by
  suffices hkept : (∀ req limit, e ≠ .lookup req limit) → ServingOk v' pages by
    cases e with
    | lookup req limit => exact servingOk_lookup h hcov hok
    | _ => exact ⟨pages, [], by simp, fun _ => rfl, hkept (by simp)⟩
  intro hne
  obtain ⟨hacc, hstage⟩ := h
  cases e with
  | lookup req limit => exact absurd rfl (hne req limit)
  | arrive =>
    rw [step, some_inj] at hok
    exact hok ▸ ⟨hacc.newRecord, (Frame.newRecord hacc).stage hacc hstage⟩
  | disk session =>
    rw [step, some_inj] at hok
    exact hok ▸ ⟨hacc.congr rfl rfl rfl rfl, (Frame.disk hacc session).stage hacc hstage⟩
  | grow seqLen committedLen =>
    obtain ⟨req, hturn, hok⟩ := bind_eq_some_iff.1 hok
    split at hok
    · cases hok
    obtain ⟨c, hc, rfl⟩ := map_eq_some_iff.1 hok
    rw [hturn] at hstage
    obtain ⟨hacc', hr⟩ := running_grow hacc hstage.runs (by omega) hc
    exact ⟨hacc', .running req hr⟩
  | unfinished output stop =>
    obtain ⟨req, hturn, hok⟩ := bind_eq_some_iff.1 hok
    split at hok
    · cases hok
    rename_i hguard
    simp only [Bool.not_eq_true', not_or, Bool.not_eq_false, not_lt] at hguard
    split at hok
    · cases hok
    rename_i c req' hc
    rw [hturn] at hstage
    have hr : Running v.cache { req with outputIds := output, extendEnd := some stop } :=
      hstage.runs.sameRecord rfl rfl
    obtain ⟨⟨cuts, rfl⟩, hr'⟩ := running_unfinished hr rfl hguard.2 (hcov req hturn) hc
    rw [some_inj] at hok
    subst hok
    refine ⟨hacc.congr rfl rfl rfl rfl, ?_⟩
    rw [hguard.1]
    exact .running req' hr'
  | finish output finishedLen =>
    obtain ⟨req, hturn, hok⟩ := bind_eq_some_iff.1 hok
    rw [hturn] at hstage
    exact servingOk_release hacc hok (hstage.runs.sameRecord rfl rfl)
  | abort output =>
    obtain ⟨req, hturn, hok⟩ := bind_eq_some_iff.1 hok
    rw [hturn] at hstage
    exact servingOk_release hacc hok (hstage.runs.sameRecord rfl rfl)
  | reset =>
    rw [step] at hok
    split at hok
    · cases hok
    rename_i hidle
    rw [Bool.not_eq_true] at hidle
    rw [hidle] at hstage
    split at hok
    · cases hok
    rename_i c hc
    rw [some_inj] at hok
    obtain ⟨hacc', hrest, -⟩ := rest_dropSlot hacc hstage.rest.owners hc
    exact hok ▸ ⟨hacc', .idle hrest⟩

variable {v₀ : Serving Key Rows Ring}

/-- In a run where lookups find the pin covered, no page is listed twice. -/
lemma servingOk_run (hinit : v₀.Initial) (hnd : v₀.cache.alloc.allFree.Nodup)
    (h : Run (step cfg) Covered v₀ v) : ∃ pages, pages.Nodup ∧ ServingOk v pages := by
  refine h.invariant (I := fun v => ∃ pages, pages.Nodup ∧ ServingOk v pages)
    ⟨_, hnd, servingOk_of_initial hinit⟩ ?_
  rintro s e s' ⟨pages, hnd, hs⟩ hcov hok
  obtain ⟨pages', lost, hperm, -, hs'⟩ := servingOk_step hs hcov hok
  exact ⟨pages', (nodup_append.1 (hperm.nodup_iff.2 hnd)).1, hs'⟩

/-- If no more is adopted than a row holds either, the pages are those of the start. -/
lemma servingOk_run_fits (hinit : v₀.Initial) (h : Run (step cfg) (CoveredAndFits cfg) v₀ v) :
    ServingOk v v₀.cache.alloc.allFree := by
  refine h.invariant (I := (ServingOk · v₀.cache.alloc.allFree)) (servingOk_of_initial hinit) ?_
  intro s e s' hs hcov hok
  obtain ⟨pages', lost, hperm, hlost, hs'⟩ := servingOk_step hs hcov.1 hok
  rw [hlost hcov, append_nil] at hperm
  exact ⟨⟨hs'.accounts.page_pos, hs'.accounts.record, hs'.accounts.fresh, hs'.accounts.rows,
    hs'.accounts.book.trans hperm⟩, hs'.stage⟩

/-! ## Live hits -/

/-- **A hit returns live slots.**  In every state reached by events that found the pin covered, and
for every key that finds it covered: if the pin answers, then with the first entries of its row, as
many as were allocated before the call at most, and none of them is free afterwards.  The free list
is one of pages; with a page size of `1` these are the slots. -/
theorem hit_returns_live_slots {v₀ : Serving Key Rows Ring} (hinit : v₀.Initial)
    (hnd : v₀.cache.alloc.allFree.Nodup) (hrun : Run (Serving.step cfg) Covered v₀ v)
    {key : RadixKey} {req req' : Req} {m : MatchResult} (hcov : v.cache.RowCoversPin key)
    (hok : v.cache.matchPrefix cfg key req = .ok (c', req', some m)) (hpin : m.event ≠ .session) :
    ∃ ref idx, v.cache.slot = some ref ∧ (v.cache.heap ref).reqPoolIdx = some idx ∧
      m.deviceIndices = (range m.deviceIndices.length).map (v.cache.pool.rows idx) ∧
      m.deviceIndices.length ≤ (v.cache.heap ref).kvAllocatedLen ∧
      ∀ x ∈ m.deviceIndices, x / v.cache.pageSize ∉ c'.alloc.allFree := by
  obtain ⟨pages, hnd, hacc, hstage⟩ := servingOk_run hinit hnd hrun
  obtain ⟨_, hcase, -⟩ := matchPrefix_cases hok
  -- A saved conversation answers as such, so only a hit is left.
  have hsaved : ∀ {c₁ c₂ : Cache Key Rows Ring} {req1 req2 : Req}, Accounts c₁ pages →
      c₁.matchSavedSession cfg key req1 = .ok (c₂, req2, some m) → m.event = .session := by
    intro c₁ c₂ req1 req2 hacc hs
    rcases matchSavedSession_spec hacc hs with ⟨hnone, _⟩ | ⟨_, _, hsome, _⟩
    · cases hnone
    · rw [some_inj.1 hsome]
  cases hcase with
  | stale _ hslot _ hnone _ => exact absurd hnone (hstage.pinned _ hslot).holds
  | unpinned _ _ hs => exact absurd (hsaved hacc hs) hpin
  | adopted _ _ _ _ hs => exact absurd (hsaved hacc hs) hpin
  | @hit ref ids c₁ _ hslot hids hholds hpos hfree =>
    obtain ⟨idx, hidx⟩ := ne_none_iff_exists'.1 hholds
    have hle := (hitLen_le (hstage.pinned ref hslot) hslot hids hpos hcov).1
    obtain ⟨hacc1, honly, hpool, hidx1, hlen1⟩ := hacc.freeTail hidx hle hfree
    generalize (v.cache.hitLen key ids).1 = n at hle hlen1
    have hwidth := (hacc.record ref).width hholds
    have hind : c₁.slotIndices ref n = (range n).map (v.cache.pool.rows idx) := by
      rw [slotIndices, hidx1, hpool]
      show (range' 0 _).map _ = _
      rw [range_eq_range', Nat.sub_zero, min_eq_left (le_trans hle hwidth)]
    rw [hind, length_map, length_range]
    refine ⟨ref, idx, hslot, hidx, rfl, hle, fun x hx => ?_⟩
    obtain ⟨p, hp, rfl⟩ := mem_map.1 hx
    have hmem := hacc1.mem_pagesAt hidx1 (hlen1 ▸ mem_range.1 hp)
    rw [hpool, honly.pageSize] at hmem
    exact hacc1.not_mem_allFree hnd (by rw [hidx1]; simp) hmem

end

/-- A start with one free row of 64 positions and 128 slots, one to a page. -/
def servingStart : Serving (List UInt8) (List Token) (List Token) :=
  ⟨(sampleStart 1).cache, none, false⟩

lemma initial_servingStart : servingStart.Initial :=
  ⟨by decide, fun _ => rfl, by decide +kernel, rfl, rfl, rfl, rfl, rfl⟩

lemma nodup_servingStart : servingStart.cache.alloc.allFree.Nodup := by
  decide +kernel

/-- A turn that pins `[0, 1, 2]`, with a stop at 1 and a slot for each id; then the next request
arrives. -/
def pinThree : List (ServeEvent (List UInt8) (List Token) (List Token)) :=
  [.arrive, .lookup (sampleReq [0, 1]) none, .grow 1 1, .unfinished [] 1, .grow 3 3,
    .finish [2] none, .arrive]

/-- A request with the record that arrived last. -/
def nextReq (ids : List Token) : Req := { sampleReq ids with kv := 2 }

theorem hit_returns_live_slots_after_pinThree :
    ∃ v c' req' m, Run (Serving.step (sampleConfig false)) Covered servingStart v ∧
      v.cache.matchPrefix (sampleConfig false) (Joint.keyOf (nextReq [0, 1, 2, 3]) none)
        (nextReq [0, 1, 2, 3]) = .ok (c', req', some m) ∧ m.deviceIndices = [1, 2, 3] ∧
      ∃ ref idx, v.cache.slot = some ref ∧ (v.cache.heap ref).reqPoolIdx = some idx ∧
        m.deviceIndices = (range m.deviceIndices.length).map (v.cache.pool.rows idx) ∧
        m.deviceIndices.length ≤ (v.cache.heap ref).kvAllocatedLen ∧
        ∀ x ∈ m.deviceIndices, x / v.cache.pageSize ∉ c'.alloc.allFree := by
  have hex := Run.exists_of_any (step (sampleConfig false)) Covered servingStart pinThree
    (fun v => v.cache.RowCoversPin (Joint.keyOf (nextReq [0, 1, 2, 3]) none) ∧
      ∃ r ∈ (v.cache.matchPrefix (sampleConfig false) (Joint.keyOf (nextReq [0, 1, 2, 3]) none)
        (nextReq [0, 1, 2, 3])).toOption, r.2.2 = some ⟨[1, 2, 3], .exact⟩)
    (by decide +kernel) (by decide +kernel)
  obtain ⟨v, hrun, hcov, ⟨c', req', res⟩, hok, rfl⟩ := hex
  have hok := toOption_ok hok
  exact ⟨v, c', req', _, hrun, hok, rfl, hit_returns_live_slots initial_servingStart
    nodup_servingStart hrun hcov hok (by decide)⟩

/-- A request that shares one id with the pin is looked up, which cuts the row to one slot, and does
not run.  The next one continues all of the pin: it is given three slots although one is allocated,
and the other two are on the free list. -/
theorem rematch_returns_freed_slots :
    servingStart.Initial ∧ (runList (Serving.step (sampleConfig false)) servingStart
          (pinThree ++ [.lookup (nextReq [0, 9]) none])).map (fun v =>
        (v.cache.slot.map fun ref => (v.cache.heap ref).kvAllocatedLen,
          (v.cache.matchPrefix (sampleConfig false) (Joint.keyOf (nextReq [0, 1, 2, 3]) none)
              (nextReq [0, 1, 2, 3])).toOption.map fun r =>
            (r.2.2, r.1.alloc.allFree.filter (· ≤ 3)))) =
      some (some 1, some (some ⟨[1, 2, 3], .exact⟩, [2, 3])) :=
  ⟨initial_servingStart, by decide +kernel⟩

/-! ## Conserved slots -/

/-- The pages of the pinned row. -/
def Serving.pinnedPages (v : Serving Key Rows Ring) : List Nat :=
  (v.cache.slot.map v.cache.pagesAt).getD []

/-- The pages of the row of the request at work, if it is not the pinned one. -/
def Serving.ownPages (v : Serving Key Rows Ring) : List Nat :=
  match v.turn with
  | none => []
  | some req => if v.cache.slot = some req.kv then [] else v.cache.pagesAt req.kv

/-- The records that may have a row: the pin, and that of the request at work. -/
def Serving.owners (v : Serving Key Rows Ring) : List Nat :=
  v.cache.slot.toList ++ match v.turn with
    | none => []
    | some req => if v.cache.slot = some req.kv then [] else [req.kv]

lemma Serving.nodup_owners (v : Serving Key Rows Ring) : v.owners.Nodup := by
  rw [owners]
  cases v.cache.slot with
  | none =>
    grind
  | some ref =>
    cases v.turn with
    | none => simp
    | some req =>
      grind

lemma Serving.flatMap_owners (v : Serving Key Rows Ring) :
    v.owners.flatMap v.cache.pagesAt = v.pinnedPages ++ v.ownPages := by
  rw [owners, pinnedPages, ownPages, flatMap_append]
  congr 1
  · cases v.cache.slot <;> simp
  · cases v.turn with
    | none => rfl
    | some req =>
      dsimp only
      split <;> simp

lemma Serving.mem_owners (v : Serving Key Rows Ring)
    (h : v.cache.slot = some a ∨ ∃ req ∈ v.turn, req.kv = a) : a ∈ v.owners := by
  grind [owners]

lemma Stage.owners {turn : Option Req} {started : Bool} (h : Stage c turn started)
    (ha : (c.heap a).reqPoolIdx ≠ none) : c.slot = some a ∨ ∃ req ∈ turn, req.kv = a := by
  cases h with
  | idle hrest => exact .inl (hrest.owners a ha)
  | matched _ hrest _ => exact .inl (hrest.owners a ha)
  | running req hreq => exact (hreq.owners a ha).imp_right fun heq => ⟨req, rfl, heq.symm⟩

section
variable [DecidableEq Key] {cfg : SessionConfig Key}

/-- **The slots are conserved.**  In every state reached by events that found the pin covered and
adopted no more than a row holds: every page of the start is in exactly one of the free list, the
pinned row and the row of the request at work; no other record has a row; and the entries of the
rows up to what is allocated lie in these pages, each at its offset. -/
theorem slots_are_conserved {v₀ : Serving Key Rows Ring} (hinit : v₀.Initial)
    (hnd : v₀.cache.alloc.allFree.Nodup) (hrun : Run (Serving.step cfg) (CoveredAndFits cfg) v₀ v) :
    (v.cache.alloc.allFree ++ (v.pinnedPages ++ v.ownPages)).Perm v₀.cache.alloc.allFree ∧
      (v.cache.alloc.allFree ++ (v.pinnedPages ++ v.ownPages)).Nodup ∧
      ∀ a idx, (v.cache.heap a).reqPoolIdx = some idx →
        (v.cache.slot = some a ∨ ∃ req ∈ v.turn, req.kv = a) ∧
        ∀ p < (v.cache.heap a).kvAllocatedLen, v.cache.pool.rows idx p / v.cache.pageSize ∈
            v.cache.pagesAt a ∧
          v.cache.pool.rows idx p % v.cache.pageSize = p % v.cache.pageSize := by
  obtain ⟨hacc, hstage⟩ := servingOk_run_fits hinit hrun
  have hperm : (v.cache.alloc.allFree ++ (v.pinnedPages ++ v.ownPages)).Perm
      v₀.cache.alloc.allFree := by
    refine List.Perm.trans (List.Perm.append_left _ ?_) hacc.book
    rw [← v.flatMap_owners]
    refine (flatMap_perm_of_support nodup_range v.nodup_owners (fun a _ => ?_)
      fun a _ hnot => ?_).symm
    · by_cases ha : (v.cache.heap a).reqPoolIdx = none
      · exact .inr (pagesOf_none ha)
      · exact .inl (mem_range.2 (hacc.fresh a ha))
    · by_contra hne
      exact hnot (v.mem_owners (hstage.owners fun hnone => hne (pagesOf_none hnone)))
  refine ⟨hperm, hperm.nodup_iff.2 hnd, fun a idx hidx => ⟨hstage.owners (by rw [hidx]; simp),
    fun p hp => ⟨hacc.mem_pagesAt hidx hp, ?_⟩⟩⟩
  rw [(hacc.record a).aligned idx hidx p hp, Nat.mul_add_mod_self_right, Nat.mod_mod]

end

theorem slots_are_conserved_after_pinThree :
    ∃ v, Run (Serving.step (sampleConfig true)) (CoveredAndFits (sampleConfig true))
        servingStart v ∧
      v.pinnedPages = [1, 2, 3] ∧
      (v.cache.alloc.allFree ++ (v.pinnedPages ++ v.ownPages)).Perm
        servingStart.cache.alloc.allFree ∧
      (v.cache.alloc.allFree ++ (v.pinnedPages ++ v.ownPages)).Nodup ∧
      ∀ a idx, (v.cache.heap a).reqPoolIdx = some idx →
        (v.cache.slot = some a ∨ ∃ req ∈ v.turn, req.kv = a) ∧
        ∀ p < (v.cache.heap a).kvAllocatedLen, v.cache.pool.rows idx p / v.cache.pageSize ∈
            v.cache.pagesAt a ∧
          v.cache.pool.rows idx p % v.cache.pageSize = p % v.cache.pageSize := by
  exact Run.exists_of pinThree (by decide +kernel)
    (by decide +kernel) fun v hrun hv =>
      ⟨hv, slots_are_conserved initial_servingStart nodup_servingStart hrun⟩

/-- A session directory with a conversation of 70 ids and its image. -/
def longSession : SessionState (List UInt8) (List Token) (List Token) :=
  let key := sessionKey (sampleConfig true) (countTo 70) none none
  ⟨none, none, [⟨key, countTo 70, [70], none, none⟩],
    [(key, ⟨70, [70], ⟨⟨countTo 70, countTo 70⟩, none⟩, []⟩)]⟩

/-- Two ways a slot is not in exactly one place.  After the run of `rematch_returns_freed_slots`, a
miss gives back the row it was told to have three slots, and two of them are on the free list twice.
And a request that continues a saved conversation of 70 ids is given no row, as a row has 64
positions, but the 70 slots it took first are neither free nor in a row. -/
theorem slots_freed_twice_or_lost :
    servingStart.Initial ∧ (runList (Serving.step (sampleConfig false)) servingStart
          (pinThree ++ [.lookup (nextReq [0, 9]) none, .lookup (nextReq [0, 1, 2, 3]) none,
            .lookup (nextReq [8]) none])).map (fun v =>
        (v.cache.alloc.allFree.count 2, v.cache.alloc.allFree.count 3, v.cache.slot)) =
      some (2, 2, none) ∧
      (runList (Serving.step (sampleConfig true)) servingStart
          [.arrive, .disk longSession, .lookup (sampleReq (countTo 71)) none]).map (fun v =>
        (v.cache.alloc.allFree.length, v.pinnedPages, v.ownPages)) = some (58, [], []) :=
  ⟨initial_servingStart, by decide +kernel, by decide +kernel⟩

end Sglang.Sticky
