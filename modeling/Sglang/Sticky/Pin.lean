import Sglang.Lib.Runs
import Sglang.Sticky.Cache

/-!
# What each operation does to the pin

The pin is the part of the cache a lookup reads: the slot, the pinned ids with their namespace, and
the cuts.  Freeing, trimming and growing rows leave it alone (`SamePin`); a lookup, a finish and an
abort change it in the ways listed here.  The protocol results use these lemmas and never unfold an
operation of the cache.

The lemmas about lookups are for a cache without saved sessions.

* `hitLen_spec`: what a lookup may reuse is all of the pinned ids, or a cut that it shares.
* `matchPrefix_spec`: a lookup misses and leaves nothing pinned, or the pin answers it.
* `releaseKvCache_finish`, `releaseKvCache_abort`, `cacheUnfinishedReq_spec`: what a finish, an
  abort and a stop after a chunk record.
-/

namespace Sglang.Sticky
open Lib Option Cache Except ReqKvInfo Bool

variable {Key Rows Ring : Type}

/-- The two caches have the same pin and session state, and rows of the same width. -/
structure SamePin (c c' : Cache Key Rows Ring) : Prop where
  slot : c'.slot = c.slot
  lastIds : c'.lastIds = c.lastIds
  lastExtraKey : c'.lastExtraKey = c.lastExtraKey
  lastCacheSalt : c'.lastCacheSalt = c.lastCacheSalt
  cuts : c'.cuts = c.cuts
  session : c'.session = c.session
  width : c'.pool.maxContextLen = c.pool.maxContextLen

/-- Nothing is pinned. -/
structure Unpinned (c : Cache Key Rows Ring) : Prop where
  slot : c.slot = none
  lastIds : c.lastIds = none
  cuts : c.cuts = []

lemma allocRows_width (p : ReqToTokenPool) (n : Nat) :
    (p.allocRows n).2.maxContextLen = p.maxContextLen := by
  grind [ReqToTokenPool.allocRows]

variable {c : Cache Key Rows Ring} {ref : Nat}

lemma rowToGrow_width {idx start : Nat} {pool : ReqToTokenPool}
    (h : c.rowToGrow ref = some (idx, pool, start)) :
    pool.maxContextLen = c.pool.maxContextLen := by
  grind [rowToGrow, allocRows_width]

namespace SamePin
variable {c c' c'' : Cache Key Rows Ring}

lemma refl (c : Cache Key Rows Ring) : SamePin c c := ⟨rfl, rfl, rfl, rfl, rfl, rfl, rfl⟩

lemma trans (h : SamePin c c') (h' : SamePin c' c'') : SamePin c c'' :=
  ⟨h'.slot.trans h.slot, h'.lastIds.trans h.lastIds, h'.lastExtraKey.trans h.lastExtraKey,
    h'.lastCacheSalt.trans h.lastCacheSalt, h'.cuts.trans h.cuts, h'.session.trans h.session,
    h'.width.trans h.width⟩

lemma unpinned (h : SamePin c c') (hu : Unpinned c) : Unpinned c' :=
  ⟨h.slot.trans hu.slot, h.lastIds.trans hu.lastIds, h.cuts.trans hu.cuts⟩

lemma setKv (c : Cache Key Rows Ring) (ref : Nat) (kv : ReqKvInfo) : SamePin c (c.setKv ref kv) :=
  ⟨rfl, rfl, rfl, rfl, rfl, rfl, rfl⟩

variable {ref : Nat}

lemma freeRow {ranges : List (Nat × Nat)} (h : c.freeRow ref ranges = .ok c') : SamePin c c' := by
  rw [Cache.freeRow, bind_ok] at h
  obtain ⟨a, -, h⟩ := h
  rw [pure_ok] at h
  exact h ▸ ⟨rfl, rfl, rfl, rfl, rfl, rfl, rfl⟩

lemma freePoolRow (h : c.freePoolRow ref = .ok c') : SamePin c c' := by
  rw [Cache.freePoolRow] at h
  split at h
  · cases h
  · rw [ok.injEq] at h
    exact h ▸ ⟨rfl, rfl, rfl, rfl, rfl, rfl, rfl⟩

lemma releaseRecord {ref : Option Nat} (h : c.releaseRecord ref = .ok c') : SamePin c c' := by
  cases ref with
  | none =>
    rw [Cache.releaseRecord, ok.injEq] at h
    exact h ▸ .refl c
  | some ref =>
    rw [Cache.releaseRecord] at h
    split at h
    · rw [bind_ok] at h
      obtain ⟨c₁, h₁, h₂⟩ := h
      exact (freeRow h₁).trans (freePoolRow h₂)
    · rw [ok.injEq] at h
      exact h ▸ .refl c

lemma freeKvAligned {target stop : Nat} (h : c.freeKvAligned ref target stop = .ok c') :
    SamePin c c' := by
  rw [Cache.freeKvAligned] at h
  split at h
  · rw [ok.injEq] at h
    exact h ▸ .refl c
  · exact freeRow h

lemma freeTail {prefixLen : Nat} (h : c.freeTail ref prefixLen = .ok c') : SamePin c c' := by
  rw [Cache.freeTail, bind_ok] at h
  obtain ⟨c₁, h₁, h⟩ := h
  rw [pure_ok] at h
  exact h ▸ (freeKvAligned h₁).trans (setKv c₁ _ _)

lemma innerFinished {req : Req} {owned : Nat} (h : c.innerFinished req owned = .ok c') :
    SamePin c c' :=
  freeRow h

lemma freePastOwned {owned : Nat} (h : c.freePastOwned ref owned = .ok c') : SamePin c c' := by
  rw [Cache.freePastOwned] at h
  split at h
  · exact freeRow h
  · rw [ok.injEq] at h
    exact h ▸ .refl c

lemma growRow {seqLen committedLen : Nat} (h : c.growRow ref seqLen committedLen = some c') :
    SamePin c c' := by
  rw [Cache.growRow] at h
  split at h
  · cases h
  rename_i idx pool start hrow
  split at h
  · cases h
  split at h
  · cases h
  rw [some_inj] at h
  have hw := rowToGrow_width hrow
  exact h ▸ ⟨rfl, rfl, rfl, rfl, rfl, rfl, hw⟩

/-- Trimming what speculation left past the end changes the row and the output of the request only.
-/
lemma trimOvershoot {req req' : Req} {finishedLen : Nat}
    (h : c.trimOvershoot req finishedLen = .ok (c', req')) :
    SamePin c c' ∧ req' = { req with outputIds := req.outputIds.take finishedLen } := by
  rw [Cache.trimOvershoot, bind_ok] at h
  obtain ⟨c₁, h₁, h⟩ := h
  rw [pure_ok, Prod.mk.injEq] at h
  exact ⟨h.1 ▸ (freeKvAligned h₁).trans (setKv c₁ _ _), h.2.symm⟩

end SamePin

lemma unpinned_clearPin (c : Cache Key Rows Ring) : Unpinned c.clearPin := ⟨rfl, rfl, rfl⟩

variable {c' : Cache Key Rows Ring}

/-- `_drop_slot` leaves nothing pinned and touches neither the session files nor the width of the
rows. -/
lemma unpinned_dropSlot (h : c.dropSlot = .ok c') :
    Unpinned c' ∧ c'.session = c.session ∧ c'.pool.maxContextLen = c.pool.maxContextLen :=
  have hs := SamePin.releaseRecord h
  ⟨hs.unpinned (unpinned_clearPin c), hs.session, hs.width⟩

/-! ## Lookups -/

/-- **What a lookup may reuse**: all of the pinned ids, or a shared cut. -/
theorem hitLen_spec {key : RadixKey} {lastIds : List Token} (h : 0 < (c.hitLen key lastIds).1) :
    ((c.hitLen key lastIds).2 = true ∧ (c.hitLen key lastIds).1 = lastIds.length ∧
        key.rawTokenIds.take lastIds.length = lastIds) ∨
      IsSharedCut c.cuts key.rawTokenIds lastIds (c.hitLen key lastIds).1 := by
  simp only [hitLen] at h ⊢
  split at h <;> rename_i hexact
  · rw [if_pos hexact]
    refine .inl ⟨hexact, rfl, ?_⟩
    rw [and_eq_true] at hexact
    exact (isExactContinuation_iff.1 hexact.2).2
  · grind [longestCut_spec]

/-- What a hit of length `L` leaves in the cache and in the request. -/
structure HitResult (c c' : Cache Key Rows Ring) (req' : Req) (ref pinned L : Nat) : Prop where
  slot : c'.slot = c.slot
  lastIds : c'.lastIds = c.lastIds
  session : c'.session = c.session
  width : c'.pool.maxContextLen = c.pool.maxContextLen
  cuts : c'.cuts = if L < pinned then c.cuts.filter fun cut => decide (cut ≤ L) else c.cuts
  kv : req'.kv = ref
  indices : req'.prefixIndices.length = min L c.pool.maxContextLen

/-- A lookup reads the row no further than the row is wide. -/
lemma length_slotIndices {idx : Nat} (h : (c.heap ref).reqPoolIdx = some idx) (n : Nat) :
    (c.slotIndices ref n).length = min n c.pool.maxContextLen := by
  rw [slotIndices, h]
  exact length_slice c.pool idx 0 n

/-- The fields of a request that no lookup changes. -/
structure SameReq (r r' : Req) : Prop where
  rid : r'.rid = r.rid
  originInputIds : r'.originInputIds = r.originInputIds
  extendEnd : r'.extendEnd = r.extendEnd

/-- Cutting the tail of a row takes no row away from any record. -/
lemma freeTail_reqPoolIdx {prefixLen : Nat} (h : c.freeTail ref prefixLen = .ok c') (r : Nat) :
    (c'.heap r).reqPoolIdx = (c.heap r).reqPoolIdx := by
  rw [freeTail, bind_ok] at h
  obtain ⟨c₁, h₁, h⟩ := h
  rw [pure_ok] at h
  have hheap : c₁.heap = c.heap := by
    grind [freeKvAligned, freeRow, bind_ok, pure_ok]
  subst h
  simp only [setKv, hheap]
  split
  · rename_i h; rw [h]
  · rfl

/-- A slot was made ready, or nothing about the pin changed. -/
structure Ensured (c : Cache Key Rows Ring) (r : Bool × Cache Key Rows Ring) : Prop where
  lastIds : r.2.lastIds = c.lastIds
  cuts : r.2.cuts = c.cuts
  session : r.2.session = c.session
  width : r.2.pool.maxContextLen = c.pool.maxContextLen
  refused : r.1 = false → r.2.slot = c.slot
  made : r.1 = true → ∃ ref, r.2.slot = some ref ∧ (r.2.heap ref).reqPoolIdx ≠ none

lemma ensured_allocSlot (c : Cache Key Rows Ring) (n : Nat) : Ensured c (c.allocSlot n) := by
  rw [allocSlot]
  split
  · exact ⟨rfl, rfl, rfl, rfl, fun _ => rfl, fun h => absurd h (by simp)⟩
  have hwidth := allocRows_width c.pool 1
  split
  · rename_i idx rest pool hrows
    rw [hrows] at hwidth
    split
    · exact ⟨rfl, rfl, rfl, hwidth, fun _ => rfl, fun h => absurd h (by simp)⟩
    split
    · exact ⟨rfl, rfl, rfl, hwidth, fun _ => rfl, fun h => absurd h (by simp)⟩
    · refine ⟨rfl, rfl, rfl, hwidth, fun h => absurd h (by simp), fun _ => ⟨c.nextKv, rfl, ?_⟩⟩
      simp
  · rename_i pool hrows
    rw [hrows] at hwidth
    exact ⟨rfl, rfl, rfl, hwidth, fun _ => rfl, fun h => absurd h (by simp)⟩

/-- Whatever `_ensure_slot` has to do (keep the slot, make one, or give up), the outcome is
`Ensured`. -/
lemma ensured_ensureSlot (c : Cache Key Rows Ring) (n : Nat) : Ensured c (c.ensureSlot n) := by
  rw [ensureSlot]
  split
  · exact ensured_allocSlot c n
  rename_i ref idx hslot
  rw [bind_eq_some_iff] at hslot
  obtain ⟨ref', hs, hidx⟩ := hslot
  obtain ⟨idx', hi, he⟩ := map_eq_some_iff.1 hidx
  cases he
  dsimp only
  split
  · exact ⟨rfl, rfl, rfl, rfl, fun h => absurd h (by simp), fun _ => ⟨ref, hs, by simp [hi]⟩⟩
  split
  · exact ⟨rfl, rfl, rfl, rfl, fun _ => rfl, fun h => absurd h (by simp)⟩
  split
  · exact ⟨rfl, rfl, rfl, rfl, fun _ => rfl, fun h => absurd h (by simp)⟩
  split
  · exact ⟨rfl, rfl, rfl, rfl, fun _ => rfl, fun h => absurd h (by simp)⟩
  refine ⟨rfl, rfl, rfl, rfl, fun h => absurd h (by simp), fun _ => ⟨ref, hs, ?_⟩⟩
  simp [hi]

section
variable [DecidableEq Key] {cfg : SessionConfig Key}

/-- The pin becomes a saved conversation, of which the first `n` ids may be reused. -/
def Cache.adopt (c : Cache Key Rows Ring) (saved : SessionRecord Key) (n : Nat) :
    Cache Key Rows Ring :=
  { c with
    lastIds := some saved.ids
    cuts := saved.cuts.filter fun cut => decide (0 < cut ∧ cut ≤ n)
    lastExtraKey := saved.extraKey
    lastCacheSalt := orNone saved.cacheSalt }

/-- **The ways an adoption can go.** -/
inductive Adoption (cfg : SessionConfig Key) (c : Cache Key Rows Ring) (key : Key) (n : Nat)
    (req : Req) : Cache Key Rows Ring → Req → Option MatchResult → Prop
  /-- The record is gone, or there is nothing to reuse. -/
  | skipped (h : c.session.loadMeta cfg key = none ∨ n = 0) : Adoption cfg c key n req c req none
  /-- No row can be had. -/
  | refused {saved : SessionRecord Key} {c₁ : Cache Key Rows Ring}
      (hsaved : c.session.loadMeta cfg key = some saved) (hn : n ≠ 0)
      (hens : c.ensureSlot n = (false, c₁)) : Adoption cfg c key n req c₁ req none
  /-- The slot takes the conversation over. -/
  | adopted {saved : SessionRecord Key} {ref : Nat} {c₁ c₂ : Cache Key Rows Ring}
      (hsaved : c.session.loadMeta cfg key = some saved) (hn : n ≠ 0)
      (hens : c.ensureSlot n = (true, c₁)) (hslot : c₁.slot = some ref)
      (htail : { c₁ with session := c₁.session.requestLoad key }.freeTail ref n = .ok c₂) :
      Adoption cfg c key n req (c₂.adopt saved n) { req with kv := ref }
        (some ⟨c₂.slotIndices ref n, .session⟩)

variable {c c' : Cache Key Rows Ring} {req req' : Req} {res : Option MatchResult}

/-- The ways in which an adoption can go are those of `Adoption`, so later proofs split on that and
never unfold `adoptSaved`. -/
lemma adoptSaved_iff {key : Key} {n : Nat} : c.adoptSaved cfg key n req = .ok (c', req', res) ↔
      Adoption cfg c key n req c' req' res := by
  constructor
  · intro h
    rw [adoptSaved] at h
    split at h
    · rename_i hsaved
      cases h
      exact .skipped (.inl hsaved)
    rename_i saved hsaved
    split at h
    · rename_i hn
      cases h
      exact .skipped (.inr hn)
    rename_i hn
    split at h
    · rename_i c₁ hens
      cases h
      exact .refused hsaved hn hens
    · rename_i c₁ hens
      split at h
      · cases h
      rename_i ref hslot
      rw [bind_ok] at h
      obtain ⟨c₂, htail, h⟩ := h
      obtain ⟨rfl, rfl, rfl⟩ := h
      exact .adopted hsaved hn hens hslot htail
  · intro h
    rw [adoptSaved]
    cases h with
    | skipped h =>
      grind
    | refused hsaved hn hens =>
      grind
    | adopted hsaved hn hens hslot htail =>
      rw [hsaved]
      dsimp only
      rw [if_neg hn, hens]
      dsimp only
      split
      · grind
      rename_i ref' hslot'
      obtain rfl := some_inj.1 (hslot.symm.trans hslot')
      exact bind_ok.2 ⟨_, htail, rfl⟩

/-- **The ways a lookup can go.** -/
inductive Lookup (cfg : SessionConfig Key) (c : Cache Key Rows Ring) (key : RadixKey) (req : Req) :
    Cache Key Rows Ring → Req → Option MatchResult → Prop
  /-- A health check is not answered. -/
  | health (hreq : req.isHealthCheck = true) : Lookup cfg c key req c req none
  /-- The pinned record has lost its row. -/
  | stale {ref : Nat} {ids : List Token} {c' : Cache Key Rows Ring} {req' : Req}
      {res : Option MatchResult} (hreq : req.isHealthCheck = false) (hslot : c.slot = some ref)
      (hids : c.lastIds = some ids) (hholds : (c.heap ref).reqPoolIdx = none)
      (h : c.clearPin.matchSavedSession cfg key req = .ok (c', req', res)) :
      Lookup cfg c key req c' req' res
  /-- Nothing is pinned. -/
  | unpinned {c' : Cache Key Rows Ring} {req' : Req} {res : Option MatchResult}
      (hreq : req.isHealthCheck = false) (hno : c.slot = none ∨ c.lastIds = none)
      (h : c.matchSavedSession cfg key req = .ok (c', req', res)) : Lookup cfg c key req c' req' res
  /-- Neither the pin nor a saved conversation answers, and the pin is dropped. -/
  | missed {ref : Nat} {ids : List Token} {c₁ c' : Cache Key Rows Ring} {req' : Req}
      (hreq : req.isHealthCheck = false) (hslot : c.slot = some ref) (hids : c.lastIds = some ids)
      (hlen : (c.hitLen key ids).1 = 0)
      (h : c.matchSavedSession cfg key req = .ok (c₁, req', none)) (hdrop : c₁.dropSlot = .ok c') :
      Lookup cfg c key req c' req' none
  /-- A saved conversation takes the place of the pin. -/
  | adopted {ref : Nat} {ids : List Token} {c' : Cache Key Rows Ring} {req' : Req} {m : MatchResult}
      (hreq : req.isHealthCheck = false) (hslot : c.slot = some ref) (hids : c.lastIds = some ids)
      (hlen : (c.hitLen key ids).1 = 0)
      (h : c.matchSavedSession cfg key req = .ok (c', req', some m)) :
      Lookup cfg c key req c' req' (some m)
  /-- The pin answers. -/
  | hit {ref : Nat} {ids : List Token} {c₁ : Cache Key Rows Ring}
      (hreq : req.isHealthCheck = false) (hslot : c.slot = some ref) (hids : c.lastIds = some ids)
      (hholds : (c.heap ref).reqPoolIdx ≠ none) (hpos : 0 < (c.hitLen key ids).1)
      (h : c.freeTail ref (c.hitLen key ids).1 = .ok c₁) :
      Lookup cfg c key req
        { c₁ with cuts := if (c.hitLen key ids).1 < ids.length then
            c₁.cuts.filter fun cut => decide (cut ≤ (c.hitLen key ids).1) else c₁.cuts }
        { req with kv := ref }
        (some ⟨c₁.slotIndices ref (c.hitLen key ids).1,
          if (c.hitLen key ids).2 then .exact else .cut⟩)

/-- The ways in which a lookup can go, one constructor of `Lookup` for each branch of
`match_prefix`. -/
lemma matchPrefix_cases {key : RadixKey} (h : c.matchPrefix cfg key req = .ok (c', req', res)) :
    ∃ req₁, Lookup cfg c key req c' req₁ res ∧
      req' = { req₁ with prefixIndices := (res.map fun m => m.deviceIndices).getD [] } := by
  rw [matchPrefix, bind_ok] at h
  obtain ⟨⟨c₁, req₁, res1⟩, h₁, h⟩ := h
  obtain ⟨rfl, rfl, rfl⟩ := h
  refine ⟨req₁, ?_, rfl⟩
  rw [tryHit] at h₁
  split at h₁
  · rename_i hreq
    cases h₁
    exact .health hreq
  · rename_i hreq
    rw [not_eq_true] at hreq
    split at h₁
    · rename_i ref ids hslot hids
      split at h₁
      · rename_i hholds
        refine .stale hreq hslot hids ?_ h₁
        rw [holdsKv] at hholds
        simpa using hholds
      · rename_i hholds
        have hholds : (c.heap ref).reqPoolIdx ≠ none := by
          grind [holdsKv]
        dsimp only at h₁
        split at h₁
        · rename_i hlen
          rw [bind_ok] at h₁
          obtain ⟨⟨c₂, req2, res2⟩, h₂, h₁⟩ := h₁
          cases res2 with
          | none =>
            rw [bind_ok] at h₁
            obtain ⟨c₃, h₃, h₁⟩ := h₁
            obtain ⟨rfl, rfl, rfl⟩ := h₁
            exact .missed hreq hslot hids hlen h₂ h₃
          | some m =>
            obtain ⟨rfl, rfl, rfl⟩ := h₁
            exact .adopted hreq hslot hids hlen h₂
        · rename_i hpos
          rw [hit, bind_ok] at h₁
          obtain ⟨c₂, h₂, h₁⟩ := h₁
          have hout : Lookup cfg c key req _ _ _ :=
            .hit hreq hslot hids hholds (Nat.pos_of_ne_zero hpos) h₂
          obtain ⟨rfl, rfl, rfl⟩ := h₁
          split
          · rename_i hlt
            rw [if_pos hlt] at hout
            exact hout
          · simp_all
    · rename_i hno
      refine .unpinned hreq ?_ h₁
      cases hs : c.slot with
      | none => exact .inl rfl
      | some ref => cases hi : c.lastIds with
        | none => exact .inr rfl
        | some ids => exact absurd hi (hno ref ids hs)

lemma sameReq_matchSavedSession {key : RadixKey}
    (h : c.matchSavedSession cfg key req = .ok (c', req', res)) : SameReq req req' := by
  rw [matchSavedSession] at h
  split at h
  · cases h
    exact ⟨rfl, rfl, rfl⟩
  dsimp only at h
  split at h
  · cases h
    exact ⟨rfl, rfl, rfl⟩
  · cases adoptSaved_iff.1 h <;> exact ⟨rfl, rfl, rfl⟩

lemma sameReq_matchPrefix {key : RadixKey}
    (h : c.matchPrefix cfg key req = .ok (c', req', res)) : SameReq req req' := by
  obtain ⟨req₁, hcase, rfl⟩ := matchPrefix_cases h
  suffices hs : SameReq req req₁ from ⟨hs.rid, hs.originInputIds, hs.extendEnd⟩
  cases hcase with
  | health _ | hit _ _ _ _ _ _ => exact ⟨rfl, rfl, rfl⟩
  | stale _ _ _ _ hs | unpinned _ _ hs | missed _ _ _ _ hs _ | adopted _ _ _ _ hs =>
    exact sameReq_matchSavedSession hs

/-- Without a session directory a lookup that the pin does not answer stays unanswered. -/
lemma matchSavedSession_of_off (hcfg : cfg.sessionsEnabled = false) (c : Cache Key Rows Ring)
    (key : RadixKey) (req : Req) : c.matchSavedSession cfg key req = .ok (c, req, none) := by
  rw [matchSavedSession, hcfg]
  rfl

/-- **A lookup without saved sessions**: it misses and leaves nothing pinned, or the pin answers
it. -/
theorem matchPrefix_spec (hcfg : cfg.sessionsEnabled = false) {key : RadixKey}
    (hreq : req.isHealthCheck = false) (hpin : c.slot = none ∨ c.lastIds = none → Unpinned c)
    (h : c.matchPrefix cfg key req = .ok (c', req', res)) :
    (Unpinned c' ∧ c'.session = c.session ∧ c'.pool.maxContextLen = c.pool.maxContextLen ∧
        req'.prefixIndices = []) ∨
      ∃ slot lastIds, c.slot = some slot ∧ c.lastIds = some lastIds ∧ 0 < (c.hitLen key lastIds).1 ∧
        HitResult c c' req' slot lastIds.length (c.hitLen key lastIds).1 := by
  obtain ⟨req₁, hcase, rfl⟩ := matchPrefix_cases h
  cases hcase with
  | health hh => cases hreq.symm.trans hh
  | stale _ _ _ _ hs =>
    rw [matchSavedSession_of_off hcfg] at hs
    cases hs
    exact .inl ⟨unpinned_clearPin c, rfl, rfl, rfl⟩
  | unpinned _ hno hs =>
    rw [matchSavedSession_of_off hcfg] at hs
    cases hs
    exact .inl ⟨hpin hno, rfl, rfl, rfl⟩
  | missed _ _ _ _ hs hdrop =>
    rw [matchSavedSession_of_off hcfg] at hs
    cases hs
    obtain ⟨hu, hs, hw⟩ := unpinned_dropSlot hdrop
    exact .inl ⟨hu, hs, hw, rfl⟩
  | adopted _ _ _ _ hs =>
    simp_all [matchSavedSession_of_off hcfg]
  | @hit ref ids c₁ _ hslot hids hholds hpos hfree =>
    have hs := SamePin.freeTail hfree
    obtain ⟨idx, hidx⟩ := ne_none_iff_exists'.1 hholds
    refine .inr ⟨ref, ids, hslot, hids, hpos, hs.slot, hs.lastIds, hs.session, hs.width, ?_, rfl,
      ?_⟩
    · simp [hs.cuts]
    · simp [slotIndices, freeTail_reqPoolIdx hfree ref, hidx, length_slice, hs.width]

end

/-! ## Finishing and stopping -/

/-- The pin after a request left its record: its ids, its cuts, and the session state untouched. -/
structure Pins (c c' : Cache Key Rows Ring) (ids : List Token) (cuts : List Nat) : Prop where
  slot : c'.slot ≠ none
  lastIds : c'.lastIds = some ids
  cuts : c'.cuts = cuts
  session : c'.session = c.session
  width : c'.pool.maxContextLen = c.pool.maxContextLen

/-- The slot takes over the record at `ref`, and its request is left with an empty one. -/
def Cache.takeOver (c : Cache Key Rows Ring) (ref : Nat) : Cache Key Rows Ring :=
  { c.setKv c.nextKv {} with
    nextKv := c.nextKv + 1
    slot := some ref }

variable {req req' : Req}

/-- `save_from_req` moves the record of the request into the slot and leaves the request a fresh
one. -/
lemma saveFromReq_ok (h : c.saveFromReq req = .ok (c', req')) :
    c' = c.takeOver req.kv ∧ req' = { req with kv := c.nextKv } := by
  grind [saveFromReq, detachKv, takeOver]

/-- **The ways a request can leave.** -/
inductive Release (c : Cache Key Rows Ring) (req : Req) : Cache Key Rows Ring → Prop
  /-- Its row is given back: it was a health check, or an abort with nothing to pin. -/
  | freed {c₀ c₁ c₂ c₃ : Cache Key Rows Ring}
      (h₀ : (req.isHealthCheck = true ∧ c₀ = c) ∨
        (req.isHealthCheck = false ∧ req.finishAbort = true ∧ c.dropForAbort req = .ok c₀))
      (h₁ : c₀.innerFinished req (c.heap req.kv).kvCommittedLen = .ok c₁)
      (h₂ : c₁.freePastOwned req.kv (c.heap req.kv).kvCommittedLen = .ok c₂)
      (h₃ : c₂.freePoolRow req.kv = .ok c₃) :
      Release c req
        (c₃.setKv req.kv { c₃.heap req.kv with kvAllocatedLen := 0, swaEvictedSeqlen := 0 })
  /-- An abort pins the last completed chunk. -/
  | aborted {c₁ c₂ : Cache Key Rows Ring} {req' : Req} {limit : Nat}
      (hreq : req.isHealthCheck = false) (habort : req.finishAbort = true)
      (hlimit : limit = min (req.originInputIds ++ req.outputIds).length
        (c.heap req.kv).kvAllocatedLen)
      (hpos : 0 < abortedPrefixLen c.cuts limit req.extendEnd)
      (h₁ : c.releaseForeignSlot req = .ok c₁)
      (h₂ : c₁.freeTail req.kv (abortedPrefixLen c.cuts limit req.extendEnd) = .ok c₂) :
      Release c req
        (((c₂.setKv req.kv { c₂.heap req.kv with cacheProtectedLen := 0 }).takeOver
          req.kv).pinAbortedIds req' (req.originInputIds ++ req.outputIds)
          (abortedPrefixLen c.cuts limit req.extendEnd))
  /-- A normal finish pins the finished ids. -/
  | finished {c₁ : Cache Key Rows Ring} {req' : Req} (hreq : req.isHealthCheck = false)
      (habort : req.finishAbort = false)
      (h₁ : ∃ req₁, c.trimOvershoot req (Cache.finishedLenOf req) = .ok (c₁, req₁)) :
      Release c req ((c₁.takeOver req.kv).pinIds req' req.kv
        (req.originInputIds ++ req.outputIds.take (Cache.finishedLenOf req)))

lemma heap_freeRow {ranges : List (Nat × Nat)} (h : c.freeRow ref ranges = .ok c') :
    c'.heap = c.heap ∧ (c.heap ref).reqPoolIdx ≠ none := by
  rw [freeRow, bind_ok] at h
  obtain ⟨alloc, hfree, h⟩ := h
  rw [pure_ok] at h
  refine ⟨h ▸ rfl, fun hnone => ?_⟩
  rw [freeKvRow, hnone] at hfree
  cases hfree

/-- The record a slot took over is not the empty one its request is left with. -/
lemma holdsKv_takeOver (c : Cache Key Rows Ring) (ref : Nat) :
    ((c.takeOver ref).heap c.nextKv).holdsKv = false := by
  rw [takeOver]
  rw [heap_setKv_self]
  rfl

section
variable (h : c.releaseKvCache req = .ok (c', req'))

include h

/-- What `release_kv_cache` needs in order to return, and the ways in which it does. -/
lemma releaseKvCache_cases :
    (c.heap req.kv).reqPoolIdx ≠ none ∧ (c.heap req.kv).isKvReleased = false ∧
      Release c req c' := by
  rw [releaseKvCache] at h
  split at h
  · cases h
  split at h
  · cases h
  rename_i hrel
  have hholds : (c.heap req.kv).reqPoolIdx ≠ none := by
    grind [holdsKv]
  refine ⟨hholds, by simpa using hrel, ?_⟩
  rw [bind_ok] at h
  obtain ⟨⟨c₁, req₁⟩, h₁, h⟩ := h
  dsimp only at h
  -- The inner cache leaves the record alone, so the row is given back afterwards.
  have hinner : ∀ {c₀}, ((req.isHealthCheck = true ∧ c₀ = c) ∨ (req.isHealthCheck = false ∧
      req.finishAbort = true ∧ c.dropForAbort req = .ok c₀)) →
      c₀.innerFinished req (c.heap req.kv).kvCommittedLen = .ok c₁ → req₁ = req →
      Release c req c' := by
    rintro c₀ h₀ hin rfl
    obtain ⟨hheap, hne⟩ := heap_freeRow hin
    rw [if_neg (by rw [hheap, holdsKv]; simpa [isSome_iff_ne_none] using hne),
      bind_ok] at h
    obtain ⟨c₂, h₂, h⟩ := h
    rw [bind_ok] at h
    obtain ⟨c₃, h₃, h⟩ := h
    rw [pure_ok, Prod.mk.injEq] at h
    exact h.1 ▸ .freed h₀ hin h₂ h₃
  rw [cacheFinishedReq] at h₁
  split at h₁
  · grind [bind_ok, pure_ok]
  rename_i hreq
  rw [not_eq_true] at hreq
  split at h₁
  · rename_i habort
    rw [bind_ok] at h₁
    obtain ⟨⟨pinned, c₂, req2⟩, h₂, h₁⟩ := h₁
    simp only [pinAbortedPrefix] at h₂
    split at h₂
    · cases h₂
      dsimp only at h₁
      rw [if_neg (by simp), bind_ok] at h₁
      obtain ⟨c₃, h₃, h₁⟩ := h₁
      rw [bind_ok] at h₁
      obtain ⟨c4, h4, h₁⟩ := h₁
      obtain ⟨rfl, rfl⟩ := h₁
      exact hinner (.inr ⟨hreq, habort, h₃⟩) h4 rfl
    · rename_i hpos
      rw [abortedPinLen] at hpos
      split at hpos
      · exact absurd rfl hpos
      rename_i hids
      rw [abortedPinLen, if_neg hids, bind_ok] at h₂
      obtain ⟨c₃, h₃, h₂⟩ := h₂
      rw [bind_ok] at h₂
      obtain ⟨c4, h4, h₂⟩ := h₂
      rw [bind_ok] at h₂
      obtain ⟨⟨c5, req5⟩, h5, h₂⟩ := h₂
      obtain ⟨rfl, rfl, rfl⟩ := h₂
      dsimp only at h₁
      obtain ⟨rfl, rfl⟩ := h₁
      obtain ⟨rfl, rfl⟩ := saveFromReq_ok h5
      rw [if_pos, pure_ok, Prod.mk.injEq] at h
      · exact h.1 ▸ .aborted hreq habort rfl (Nat.pos_of_ne_zero hpos) h₃ h4
      · exact congrArg (!·) (holdsKv_takeOver (c4.setKv req.kv _) req.kv)
  · rename_i habort
    rw [not_eq_true] at habort
    rw [pinFinished, bind_ok] at h₁
    obtain ⟨⟨c₂, req2⟩, h₂, h₁⟩ := h₁
    rw [bind_ok] at h₁
    obtain ⟨⟨c₃, req3⟩, h₃, h₁⟩ := h₁
    obtain ⟨rfl, rfl⟩ := h₁
    obtain ⟨rfl, rfl⟩ := saveFromReq_ok h₃
    obtain ⟨-, rfl⟩ := SamePin.trimOvershoot h₂
    have hfresh := holdsKv_takeOver c₂ req.kv
    rw [if_pos, pure_ok, Prod.mk.injEq] at h
    · exact h.1 ▸ .finished hreq habort ⟨_, h₂⟩
    · show (!(((c₂.takeOver req.kv).setKv req.kv _).heap c₂.nextKv).holdsKv) = true
      by_cases hkv : c₂.nextKv = req.kv
      · rw [hkv] at hfresh ⊢
        rw [heap_setKv_self]
        exact not_eq_true' _ ▸ hfresh
      · simp_all

/-- **A normal finish** pins the finished ids and records a stop at their end. -/
theorem releaseKvCache_finish
    (hreq : req.isHealthCheck = false) (hfin : req.finishAbort = false) :
    let ids := req.originInputIds ++ req.outputIds.take (finishedLenOf req)
    Pins c c' ids (noteCut c.cuts c.lastIds ids none) := by
  intro ids
  cases (releaseKvCache_cases h).2.2 with
  | freed h₀ _ _ _ =>
    rcases h₀ with ⟨hh, -⟩ | ⟨-, hh, -⟩
    · cases hreq.symm.trans hh
    · cases hfin.symm.trans hh
  | aborted _ hh _ _ _ _ => cases hfin.symm.trans hh
  | finished _ _ h₁ =>
    obtain ⟨req₁, h₁⟩ := h₁
    obtain ⟨hs, -⟩ := SamePin.trimOvershoot h₁
    refine ⟨by simp [pinIds, setKv, takeOver], rfl, ?_, hs.session, hs.width⟩
    rw [← hs.cuts, ← hs.lastIds]
    rfl

/-- **An abort** pins the last completed chunk, or leaves nothing pinned. -/
theorem releaseKvCache_abort
    (hreq : req.isHealthCheck = false) (hab : req.finishAbort = true) :
    (Unpinned c' ∧ c'.session = c.session ∧ c'.pool.maxContextLen = c.pool.maxContextLen) ∨
      ∃ limit pinLen, pinLen = abortedPrefixLen c.cuts limit req.extendEnd ∧ 0 < pinLen ∧
        limit ≤ (req.originInputIds ++ req.outputIds).length ∧
        Pins c c' ((req.originInputIds ++ req.outputIds).take pinLen)
          (abortedCuts c.cuts c.lastIds (req.originInputIds ++ req.outputIds) pinLen) := by
  cases (releaseKvCache_cases h).2.2 with
  | @freed c₀ c₁ c₂ c₃ h₀ h₁ h₂ h₃ =>
    rcases h₀ with ⟨hh, -⟩ | ⟨-, -, hdrop⟩
    · cases hreq.symm.trans hh
    have hs := (((SamePin.innerFinished h₁).trans (.freePastOwned h₂)).trans
      (.freePoolRow h₃)).trans (.setKv _ req.kv
        { c₃.heap req.kv with kvAllocatedLen := 0, swaEvictedSeqlen := 0 })
    have hu : Unpinned c₀ ∧ c₀.session = c.session ∧
        c₀.pool.maxContextLen = c.pool.maxContextLen := by
      rw [dropForAbort] at hdrop
      split at hdrop
      · rw [ok.injEq] at hdrop
        exact hdrop ▸ ⟨unpinned_clearPin c, rfl, rfl⟩
      · exact unpinned_dropSlot hdrop
    exact .inl ⟨hs.unpinned hu.1, hs.session.trans hu.2.1, hs.width.trans hu.2.2⟩
  | finished _ hh _ => cases hab.symm.trans hh
  | @aborted c₁ c₂ _ limit _ _ hlimit hpos h₁ h₂ =>
    have hs1 : c₁.lastIds = c.lastIds ∧ c₁.cuts = c.cuts ∧ c₁.session = c.session ∧
        c₁.pool.maxContextLen = c.pool.maxContextLen := by
      rw [releaseForeignSlot] at h₁
      split at h₁
      · have hs := SamePin.releaseRecord h₁
        exact ⟨hs.lastIds, hs.cuts, hs.session, hs.width⟩
      · grind
    have hs2 := SamePin.freeTail h₂
    refine .inr ⟨limit, _, rfl, hpos, hlimit ▸ min_le_left _ _, ⟨?_, rfl, ?_, ?_, ?_⟩⟩
    · simp [pinAbortedIds, takeOver]
    · show abortedCuts _ _ _ _ = _
      rw [← hs1.2.1, ← hs1.1, ← hs2.cuts, ← hs2.lastIds]
      rfl
    · exact hs2.session.trans hs1.2.2.1
    · exact hs2.width.trans hs1.2.2.2

end

/-- **A stop after a chunk** is recorded, and the request's prefix is refreshed. -/
theorem cacheUnfinishedReq_spec {stop : Nat} (h : c.cacheUnfinishedReq req = .ok (c', req'))
    (hids : req.originInputIds ≠ []) (hstop : req.extendEnd = some stop) :
    c' = { c with
      cuts := noteCut c.cuts c.lastIds (req.originInputIds ++ req.outputIds) (some stop) } ∧
      SameReq req req' ∧ req'.kv = req.kv ∧
      req'.prefixIndices.length = min stop c.pool.maxContextLen := by
  have hne : req.originInputIds ++ req.outputIds ≠ [] := by simp [hids]
  simp only [cacheUnfinishedReq, if_neg hne, hstop] at h
  split at h
  · rename_i idx stop' hidx hstop'
    cases hstop'
    cases h
    exact ⟨rfl, ⟨rfl, rfl, hstop.symm⟩, rfl, by rw [length_slice, Nat.sub_zero]⟩
  · cases h

end Sglang.Sticky
