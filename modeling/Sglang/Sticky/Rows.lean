import Sglang.Sticky.Accounts
import Sglang.Sticky.Joint
import Sglang.Sticky.Pin

/-!
# Rows over whole joint runs

Slots can be freed twice or lost (`Conservation` says when), but rows cannot: whatever happens, each
row of `req_to_token` is free or registered in one record, and only records in use have one.  This
holds in every state a joint run reaches, without any condition on its events.
-/

namespace Sglang.Sticky
open Lib Option Cache

variable {Key Rows Ring : Type} {c c' c'' : Cache Key Rows Ring}

/-- Every row is free or registered in one record, and that record is in use. -/
structure Rowed (c : Cache Key Rows Ring) : Prop where
  rows : RowsOk c
  fresh : ∀ a, (c.heap a).reqPoolIdx ≠ none → a < c.nextKv

/-- No row changed hands. -/
structure RowsKept (c c' : Cache Key Rows Ring) : Prop where
  free : c'.pool.freeSlots = c.pool.freeSlots
  idx : ∀ a, (c'.heap a).reqPoolIdx = (c.heap a).reqPoolIdx
  nextKv : c'.nextKv = c.nextKv

/-- A step that keeps the rows where they are keeps the invariant. -/
lemma Rowed.kept (h : Rowed c) (hk : RowsKept c c') : Rowed c' :=
  ⟨h.rows.same hk.free hk.idx, fun a ha => by
    rw [hk.nextKv]
    exact h.fresh a (hk.idx a ▸ ha)⟩

lemma idx_setKv (c : Cache Key Rows Ring) {ref : Nat} {kv : ReqKvInfo}
    (hkv : kv.reqPoolIdx = (c.heap ref).reqPoolIdx) (a : Nat) :
    ((c.setKv ref kv).heap a).reqPoolIdx = (c.heap a).reqPoolIdx := by
  grind [heap_setKv_self, heap_setKv_of_ne]

namespace RowsKept

lemma refl (c : Cache Key Rows Ring) : RowsKept c c := ⟨rfl, fun _ => rfl, rfl⟩

lemma trans (h : RowsKept c c') (h' : RowsKept c' c'') : RowsKept c c'' :=
  ⟨h'.free.trans h.free, fun a => (h'.idx a).trans (h.idx a), h'.nextKv.trans h.nextKv⟩

variable {ref : Nat}

lemma setKv (c : Cache Key Rows Ring) {kv : ReqKvInfo}
    (hkv : kv.reqPoolIdx = (c.heap ref).reqPoolIdx) : RowsKept c (c.setKv ref kv) :=
  ⟨rfl, idx_setKv c hkv, rfl⟩

lemma pinIds (c : Cache Key Rows Ring) (req : Req) (ref : Nat) (ids : List Token) :
    RowsKept c (c.pinIds req ref ids) := by
  refine ⟨rfl, fun a => ?_, rfl⟩
  exact idx_setKv c (by rfl) a

lemma freeRow {ranges : List (Nat × Nat)} (h : c.freeRow ref ranges = .ok c') :
    RowsKept c c' := by
  rw [Cache.freeRow, bind_ok] at h
  obtain ⟨alloc, -, h⟩ := h
  rw [pure_ok] at h
  exact h ▸ ⟨rfl, fun _ => rfl, rfl⟩

lemma freeKvAligned {target stop : Nat} (h : c.freeKvAligned ref target stop = .ok c') :
    RowsKept c c' := by
  rw [Cache.freeKvAligned] at h
  split at h
  · rw [Except.ok.injEq] at h
    exact h ▸ .refl c
  · exact .freeRow h

lemma freeTail {n : Nat} (h : c.freeTail ref n = .ok c') : RowsKept c c' := by
  rw [Cache.freeTail, bind_ok] at h
  obtain ⟨c1, h1, h⟩ := h
  rw [pure_ok] at h
  exact h ▸ (freeKvAligned h1).trans (setKv _ rfl)

lemma trimOvershoot {req req' : Req} {n : Nat} (h : c.trimOvershoot req n = .ok (c', req')) :
    RowsKept c c' := by
  rw [Cache.trimOvershoot, bind_ok] at h
  obtain ⟨c1, h1, h⟩ := h
  rw [pure_ok, Prod.mk.injEq] at h
  exact h.1 ▸ (freeKvAligned h1).trans (setKv _ rfl)

lemma freePastOwned {owned : Nat} (h : c.freePastOwned ref owned = .ok c') : RowsKept c c' := by
  rw [Cache.freePastOwned] at h
  split at h
  · exact .freeRow h
  · rw [Except.ok.injEq] at h
    exact h ▸ .refl c

end RowsKept

namespace Rowed
section
variable (h : Rowed c)

include h

lemma freePoolRow {ref : Nat} (hok : c.freePoolRow ref = .ok c') :
    Rowed c' ∧ c'.nextKv = c.nextKv := by
  rw [Cache.freePoolRow] at hok
  split at hok
  · cases hok
  rename_i idx hidx
  rw [Except.ok.injEq] at hok
  subst hok
  have hother : ∀ b ≠ ref, (({ c with pool := c.pool.freeRows [idx] }.setKv ref
      { c.heap ref with reqPoolIdx := none }).heap b).reqPoolIdx = (c.heap b).reqPoolIdx :=
    fun b hb => by rw [heap_setKv_of_ne _ _ hb]
  have hnone : (({ c with pool := c.pool.freeRows [idx] }.setKv ref
      { c.heap ref with reqPoolIdx := none }).heap ref).reqPoolIdx = none := by
    rw [heap_setKv_self]
  refine ⟨⟨h.rows.drop hidx rfl hother hnone, fun a ha => ?_⟩, rfl⟩
  by_cases hne : a = ref
  · grind
  · rw [hother a hne] at ha
    exact h.fresh a ha

lemma releaseRecord {ref : Option Nat} (hok : c.releaseRecord ref = .ok c') :
    Rowed c' ∧ c'.nextKv = c.nextKv := by
  cases ref with
  | none =>
    grind [releaseRecord]
  | some ref =>
    rw [Cache.releaseRecord] at hok
    split at hok
    · rw [bind_ok] at hok
      obtain ⟨c1, h1, hok⟩ := hok
      have hk := RowsKept.freeRow h1
      obtain ⟨h', hn⟩ := (h.kept hk).freePoolRow hok
      exact ⟨h', hn.trans hk.nextKv⟩
    · grind

/-- What the pin is does not matter to the rows. -/
lemma pin (hpool : c'.pool = c.pool) (hheap : c'.heap = c.heap)
    (hnext : c'.nextKv = c.nextKv) : Rowed c' :=
  h.kept ⟨by rw [hpool], fun a => by rw [hheap], hnext⟩

/-- The row of the slot goes back to the pool, and no record names it any more. -/
lemma dropSlot (hok : c.dropSlot = .ok c') : Rowed c' ∧ c'.nextKv = c.nextKv :=
  releaseRecord (c := c.clearPin) (h.pin rfl rfl rfl) hok

/-- A record that is fresh has no row yet. -/
lemma newRecord : Rowed { c.setKv c.nextKv {} with nextKv := c.nextKv + 1 } := by
  have hidx : ∀ a, ((c.setKv c.nextKv {}).heap a).reqPoolIdx = (c.heap a).reqPoolIdx := by
    intro a
    by_cases ha : a = c.nextKv
    · rw [ha, heap_setKv_self]
      by_contra hne
      exact lt_irrefl _ (h.fresh c.nextKv fun hn => hne hn.symm)
    · rw [heap_setKv_of_ne _ _ ha]
  exact ⟨h.rows.same rfl hidx, fun a ha => Nat.lt_succ_of_lt (h.fresh a (hidx a ▸ ha))⟩

lemma takeOver (ref : Nat) : Rowed (c.takeOver ref) := h.newRecord.pin rfl rfl rfl

lemma growRow {ref seqLen committedLen : Nat} (href : ref < c.nextKv)
    (hok : c.growRow ref seqLen committedLen = some c') : Rowed c' ∧ c'.nextKv = c.nextKv := by
  rw [Cache.growRow] at hok
  split at hok
  · cases hok
  rename_i idx pool start hrow
  have hrow := rowFor_of_rowToGrow hrow
  split at hok
  · cases hok
  split at hok
  · cases hok
  rename_i locs alloc _
  rw [some_inj] at hok
  subst hok
  have hother : ∀ kv, ∀ b ≠ ref,
      (({ c with alloc, pool := pool.write idx start locs }.setKv ref kv).heap b).reqPoolIdx =
        (c.heap b).reqPoolIdx := fun kv b hb => by rw [heap_setKv_of_ne _ _ hb]
  refine ⟨⟨?_, fun a ha => ?_⟩, rfl⟩
  · rcases hrow.own with ⟨hidx, -, hfree⟩ | ⟨-, -, hfree⟩
    · refine h.rows.same hfree fun b => ?_
      by_cases hb : b = ref
      · rw [hb, heap_setKv_self, hidx]
      · exact hother _ b hb
    · exact h.rows.take hfree (hother _) (by rw [heap_setKv_self])
  · by_cases hne : a = ref
    · rw [hne]
      exact href
    · rw [hother _ a hne] at ha
      exact h.fresh a ha

end
end Rowed

/-! ## Lookups -/

namespace Rowed

/-- Whatever `_alloc_slot` answers. -/
lemma allocSlot (h : Rowed c) (n : Nat) : Rowed (c.allocSlot n).2 ∧
    c.nextKv ≤ (c.allocSlot n).2.nextKv := by
  rw [Cache.allocSlot]
  split
  · exact ⟨h, le_refl _⟩
  split
  · rename_i idx rest pool hrow
    obtain ⟨hfree, -, -⟩ := allocRows_one hrow
    -- A row that was taken and given back is where it was.
    have hback : ∀ alloc, Rowed { c with pool := pool.freeRows [idx], alloc } := fun alloc =>
      h.kept ⟨hfree.symm, fun _ => rfl, rfl⟩
    split
    · exact ⟨hback _, le_refl _⟩
    split
    · exact ⟨hback _, le_refl _⟩
    refine ⟨⟨h.rows.take (a := c.nextKv) hfree (fun b hb => ?_) (by simp), fun a ha => ?_⟩,
      Nat.le_succ _⟩
    · simp [hb]
    · by_cases hne : a = c.nextKv
      · exact hne ▸ Nat.lt_succ_self _
      · refine Nat.lt_succ_of_lt (h.fresh a ?_)
        simpa [hne] using ha
  · rename_i pool hnil hrow
    rw [(allocRows_one_none hrow hnil).2]
    exact ⟨h, le_refl _⟩

lemma ensureSlot (h : Rowed c) (n : Nat) : Rowed (c.ensureSlot n).2 ∧
    c.nextKv ≤ (c.ensureSlot n).2.nextKv := by
  rw [Cache.ensureSlot]
  split
  · exact h.allocSlot n
  dsimp only
  split
  · exact ⟨h, le_refl _⟩
  split
  · exact ⟨h, le_refl _⟩
  split
  · exact ⟨h.pin rfl rfl rfl, le_refl _⟩
  split
  · exact ⟨h.pin rfl rfl rfl, le_refl _⟩
  refine ⟨h.kept ⟨rfl, fun a => ?_, rfl⟩, le_refl _⟩
  exact idx_setKv _ (by rfl) a

variable [DecidableEq Key] {cfg : SessionConfig Key} {req req' : Req} {res : Option MatchResult}

/-- The records in use after a lookup: those from before, and perhaps a new one. -/
lemma adoptSaved {key : Key} {n : Nat} (h : Rowed c) (hreq : req.kv < c.nextKv)
    (hok : c.adoptSaved cfg key n req = .ok (c', req', res)) : Rowed c' ∧ req'.kv < c'.nextKv := by
  have hens := h.ensureSlot n
  cases adoptSaved_iff.1 hok with
  | skipped _ => exact ⟨h, hreq⟩
  | refused _ _ heq =>
    grind
  | @adopted _ ref c1 c2 _ _ heq hslot h2 =>
    rw [heq] at hens
    have hk := RowsKept.freeTail h2
    have h1 : Rowed { c1 with session := c1.session.requestLoad key } := hens.1.pin rfl rfl rfl
    obtain ⟨ref', hslot', hholds⟩ := (ensured_ensureSlot c n).made (by rw [heq])
    rw [heq] at hslot' hholds
    obtain rfl : ref = ref' := some_inj.1 (hslot.symm.trans hslot')
    exact ⟨(h1.kept hk).pin rfl rfl rfl, (h1.kept hk).fresh ref (by rw [hk.idx]; exact hholds)⟩

lemma matchSavedSession {key : RadixKey} (h : Rowed c) (hreq : req.kv < c.nextKv)
    (hok : c.matchSavedSession cfg key req = .ok (c', req', res)) :
    Rowed c' ∧ req'.kv < c'.nextKv := by
  have hspill : Rowed (c.spillCurrent cfg) ∧ (c.spillCurrent cfg).nextKv = c.nextKv := by
    rw [spillCurrent]
    split
    · exact ⟨h, rfl⟩
    · exact ⟨h.pin rfl rfl rfl, rfl⟩
  rw [Cache.matchSavedSession] at hok
  split at hok
  · grind
  dsimp only at hok
  split at hok
  · grind
  · exact hspill.1.adoptSaved (hspill.2 ▸ hreq) hok

/-- A lookup keeps the rows in order, whatever branch it takes. -/
lemma matchPrefix {key : RadixKey} (h : Rowed c) (hreq : req.kv < c.nextKv)
    (hok : c.matchPrefix cfg key req = .ok (c', req', res)) : Rowed c' ∧ req'.kv < c'.nextKv := by
  obtain ⟨req1, hcase, rfl⟩ := matchPrefix_cases hok
  show Rowed c' ∧ req1.kv < c'.nextKv
  cases hcase with
  | health _ => exact ⟨h, hreq⟩
  | stale _ _ _ _ hs => exact matchSavedSession (c := c.clearPin) (h.pin rfl rfl rfl) hreq hs
  | unpinned _ _ hs => exact h.matchSavedSession hreq hs
  | missed _ _ _ _ hs hdrop =>
    obtain ⟨h1, hreq1⟩ := h.matchSavedSession hreq hs
    obtain ⟨h', hn⟩ := h1.dropSlot hdrop
    exact ⟨h', hn ▸ hreq1⟩
  | adopted _ _ _ _ hs => exact h.matchSavedSession hreq hs
  | hit _ _ _ hholds _ htail =>
    have hk := RowsKept.freeTail htail
    exact ⟨(h.kept hk).pin rfl rfl rfl, (h.kept hk).fresh _ (hk.idx _ ▸ hholds)⟩

end Rowed

/-! ## Leaving -/

lemma Rowed.releaseKvCache {req req' : Req} (h : Rowed c)
    (hok : c.releaseKvCache req = .ok (c', req')) : Rowed c' := by
  cases (releaseKvCache_cases hok).2.2 with
  | @freed c0 c1 c2 c3 h0 h1 h2 h3 =>
    have hr0 : Rowed c0 := by
      rcases h0 with ⟨-, rfl⟩ | ⟨-, -, hdrop⟩
      · exact h
      rw [dropForAbort] at hdrop
      split at hdrop
      · rw [Except.ok.injEq] at hdrop
        exact hdrop ▸ h.pin rfl rfl rfl
      · exact (h.dropSlot hdrop).1
    have hr3 := ((hr0.kept (.freeRow h1)).kept (.freePastOwned h2)).freePoolRow h3
    exact hr3.1.kept (.setKv _ rfl)
  | @aborted c1 c2 _ limit _ _ _ _ h1 h2 =>
    have hr1 : Rowed c1 := by
      rw [releaseForeignSlot] at h1
      split at h1
      · exact (releaseRecord (c := { c with slot := none }) (h.pin rfl rfl rfl) h1).1
      · grind
    have hr2 : Rowed (c2.setKv req.kv { c2.heap req.kv with cacheProtectedLen := 0 }) :=
      (hr1.kept (.freeTail h2)).kept (.setKv _ rfl)
    exact (hr2.takeOver req.kv).pin rfl rfl rfl
  | @finished c1 _ _ _ h1 =>
    obtain ⟨req1, h1⟩ := h1
    exact ((h.kept (.trimOvershoot h1)).takeOver req.kv).kept (.pinIds _ _ _ _)

/-- A stop changes the cuts only. -/
lemma cacheUnfinishedReq_rows {req req' : Req} (h : c.cacheUnfinishedReq req = .ok (c', req')) :
    ∃ cuts, c' = { c with cuts } ∧ req'.kv = req.kv := by
  have hcuts : ∀ new, ∃ cuts, (if req.originInputIds ++ req.outputIds = [] then c
      else { c with cuts := new }) = { c with cuts } := by
    intro new
    split
    · exact ⟨c.cuts, rfl⟩
    · exact ⟨new, rfl⟩
  obtain ⟨cuts, hcuts⟩ := hcuts (noteCut c.cuts c.lastIds (req.originInputIds ++ req.outputIds)
    req.extendEnd)
  simp only [cacheUnfinishedReq, hcuts] at h
  split at h
  · grind
  · cases h

/-! ## Whole runs -/

/-- The rows are in order, and the request at work has a record in use. -/
structure Joint.Rowed (j : Joint Key Rows Ring) : Prop where
  cache : Sticky.Rowed j.cache
  turn : ∀ t ∈ j.turn, t.req.kv < j.cache.nextKv

section
variable [DecidableEq Key] {cfg : SessionConfig Key} {fwd : Forward Rows Ring}
  {j j' : Joint Key Rows Ring}

/-- Every event keeps the rows in order. -/
lemma Joint.Rowed.step {e : Event} (h : j.Rowed) (hstep : j.step cfg fwd e = some j') :
    j'.Rowed := by
  have hnone : ∀ {c} {s live stops}, Sticky.Rowed c →
      (⟨c, s, live, none, stops⟩ : Joint Key Rows Ring).Rowed :=
    fun hc => ⟨hc, fun t ht => (by cases ht)⟩
  cases e with
  | request req limit =>
    obtain ⟨-, -, c1, req1, res, hmatch, rfl⟩ := Joint.stepRequest_some hstep
    obtain ⟨h1, hreq⟩ := h.cache.newRecord.matchPrefix (Nat.lt_succ_self _) hmatch
    exact ⟨h1, fun t ht => by cases ht; exact hreq⟩
  | leave =>
    obtain ⟨t, -, hstep⟩ := bind_eq_some_iff.1 hstep
    split at hstep
    · grind [h.cache]
    · cases hstep
  | reserve seqLen committedLen =>
    obtain ⟨t, ht, hstep⟩ := bind_eq_some_iff.1 hstep
    obtain ⟨c', hgrow, rfl⟩ := map_eq_some_iff.1 hstep
    obtain ⟨h', hn⟩ := h.cache.growRow (h.turn t ht) hgrow
    exact ⟨h', hn ▸ h.turn⟩
  | extend stop =>
    obtain ⟨t, ht, hstep⟩ := bind_eq_some_iff.1 hstep
    obtain ⟨-, -, -, c', _, _, _, hgrow, -, rfl⟩ := Joint.stepExtend_some hstep
    obtain ⟨h', hn⟩ := h.cache.growRow (h.turn t ht) hgrow
    exact ⟨h'.pin rfl rfl rfl, fun t' ht' => by cases ht'; exact hn ▸ h.turn t ht⟩
  | unfinished sampled =>
    obtain ⟨t, ht, hstep⟩ := bind_eq_some_iff.1 hstep
    obtain ⟨-, c', req', hcall, rfl⟩ := Joint.stepUnfinished_some hstep
    obtain ⟨cuts, rfl, hkv⟩ := cacheUnfinishedReq_rows hcall
    exact ⟨h.cache.pin rfl rfl rfl, fun t' ht' => by
      cases ht'
      rw [hkv]
      exact h.turn t ht⟩
  | verify prefixLen commit =>
    obtain ⟨t, ht, hstep⟩ := bind_eq_some_iff.1 hstep
    rw [Joint.stepVerify] at hstep
    split at hstep
    · cases hstep
    rw [some_inj] at hstep
    subst hstep
    exact ⟨h.cache, fun t' ht' => by cases ht'; exact h.turn t ht⟩
  | finish output finishedLen =>
    obtain ⟨t, ht, hstep⟩ := bind_eq_some_iff.1 hstep
    obtain ⟨-, c', req', hcall, rfl⟩ := Joint.stepFinish_some hstep
    exact hnone (h.cache.releaseKvCache hcall)
  | abort output =>
    obtain ⟨t, ht, hstep⟩ := bind_eq_some_iff.1 hstep
    obtain ⟨c', req', hcall, rfl⟩ := Joint.stepAbort_some hstep
    exact hnone (h.cache.releaseKvCache hcall)

/-- A start with no row registered and each free row listed once. -/
structure Joint.RowsFree (j : Joint Key Rows Ring) : Prop where
  heap : ∀ a, (j.cache.heap a).reqPoolIdx = none
  nodup : j.cache.pool.freeSlots.Nodup

/-- **Rows are never lost or shared**, in any run. -/
theorem rowed_run {j0 : Joint Key Rows Ring} {ok : Joint Key Rows Ring → Event → Prop}
    (hinit : j0.Initial) (hfree : j0.RowsFree) (hrun : Run (Joint.step cfg fwd) ok j0 j) :
    j.Rowed := by
  refine hrun.invariant ⟨⟨⟨?_, ?_, hfree.nodup⟩, ?_⟩, ?_⟩
    fun _ _ _ h _ hstep => h.step hstep
  · exact fun a b idx ha => (by cases (hfree.heap a).symm.trans ha)
  · exact fun a idx ha => (by cases (hfree.heap a).symm.trans ha)
  · exact fun a ha => absurd (hfree.heap a) ha
  · exact fun t ht => (by cases hinit.turn.symm.trans ht)

end
end Sglang.Sticky
