import Sglang.Sticky.Accounts
import Sglang.Sticky.Joint
import Sglang.Sticky.Pin

/-!
# Slots over whole runs

The cache under a scheduler that runs one request at a time: any request may be looked up any number
of times before one of them runs, the session directory may change between two events, and a
running request grows its row, records stops and finishes or is aborted with whatever lengths it
has.  `Serving.step` is one such event.

Two things go wrong in some of these runs.  A lookup that continues the whole pin returns its full
length even if the row is shorter, because a finish left the last token without a slot or an earlier
lookup cut the row; `_free_tail` then counts slots as allocated that are free, and they are freed a
second time later.  And adopting a saved conversation longer than a row takes slots off the free
list and puts them nowhere.  `Covered` and `CoveredAndFits` are the conditions that keep both out;
what they guarantee over whole runs is proved in `Conservation`.
-/

namespace Sglang.Sticky
open Lib Option

variable {Key Rows Ring : Type}

/-- The cache and the request the scheduler is working on. -/
structure Serving (Key Rows Ring : Type) where
  cache : Cache Key Rows Ring
  /-- The request looked up last, until it leaves. -/
  turn : Option Req
  /-- It has begun to run. -/
  started : Bool

/-- One event. -/
inductive ServeEvent (Key Rows Ring : Type)
  /-- A request arrives with an empty record. -/
  | arrive
  /-- The worker, or somebody else, changes the session directory. -/
  | disk (session : SessionState Key Rows Ring)
  /-- `match_prefix` for a waiting request. -/
  | lookup (req : Req) (limit : Option Nat)
  /-- The request looked up last runs on: slots for its positions up to `seqLen`. -/
  | grow (seqLen committedLen : Nat)
  /-- `cache_unfinished_req` after a chunk that ended at `stop`. -/
  | unfinished (output : List Token) (stop : Nat)
  /-- A normal finish. -/
  | finish (output : List Token) (finishedLen : Option Nat)
  /-- An abort. -/
  | abort (output : List Token)
  | reset

namespace Serving

/-- Finish or abort: the request leaves through `release_kv_cache`. -/
def release (v : Serving Key Rows Ring) (req : Req) : Option (Serving Key Rows Ring) :=
  match v.cache.releaseKvCache req with
  | .error _ => none
  | .ok (c, _) => some ⟨c, none, false⟩

variable [DecidableEq Key]

/-- One event; `none` when it cannot happen here or the code raises.  While a request runs nothing
is looked up, and a health check brings a record of its own. -/
def step (cfg : SessionConfig Key) (v : Serving Key Rows Ring) :
    ServeEvent Key Rows Ring → Option (Serving Key Rows Ring)
  | .arrive => some { v with
      cache := { v.cache.setKv v.cache.nextKv {} with nextKv := v.cache.nextKv + 1 } }
  | .disk session => some { v with cache := { v.cache with session } }
  | .lookup req limit =>
    if v.started ∨ v.cache.nextKv ≤ req.kv ∨ (req.isHealthCheck ∧ v.cache.slot = some req.kv) then
      none
    else match v.cache.matchPrefix cfg (Joint.keyOf req limit) req with
      | .error _ => none
      | .ok (c, req, _) => some ⟨c, some req, false⟩
  | .grow seqLen committedLen => v.turn.bind fun req =>
    if seqLen < committedLen then none
    else (v.cache.growRow req.kv seqLen committedLen).map fun c => ⟨c, some req, true⟩
  | .unfinished output stop => v.turn.bind fun req =>
    if !v.started ∨ (v.cache.heap req.kv).kvAllocatedLen < stop then none
    else match v.cache.cacheUnfinishedReq { req with outputIds := output, extendEnd := some stop } with
      | .error _ => none
      | .ok (c, req) => some { v with cache := c, turn := some req }
  | .finish output finishedLen => v.turn.bind fun req =>
    v.release { req with outputIds := output, finishedLen, finishAbort := false }
  | .abort output => v.turn.bind fun req =>
    v.release { req with outputIds := output, finishAbort := true }
  | .reset =>
    if v.started then none
    else match v.cache.reset with
      | .error _ => none
      | .ok c => some ⟨c, none, false⟩

/-- A start where every slot and every row is free. -/
structure Initial (v : Serving Key Rows Ring) : Prop where
  page_pos : 0 < v.cache.pageSize
  heap : ∀ a, v.cache.heap a = {}
  rows : v.cache.pool.freeSlots.Nodup
  slot : v.cache.slot = none
  lastIds : v.cache.lastIds = none
  cuts : v.cache.cuts = []
  turn : v.turn = none
  started : v.started = false

end Serving

/-! ## Conditions -/

/-- If the key continues all of the pinned ids, the pinned row has a slot for each of them. -/
def Cache.RowCoversPin (c : Cache Key Rows Ring) (key : RadixKey) : Prop :=
  ∀ ref ∈ c.slot, ∀ ids ∈ c.lastIds, (c.hitLen key ids).2 = true →
    ids.length ≤ (c.heap ref).kvAllocatedLen

instance (c : Cache Key Rows Ring) (key : RadixKey) : Decidable (c.RowCoversPin key) :=
  inferInstanceAs (Decidable (∀ ref ∈ c.slot, ∀ ids ∈ c.lastIds, _))

/-- A lookup finds the pin covered, and a health check has a prompt of one token. -/
def Covered (v : Serving Key Rows Ring) : ServeEvent Key Rows Ring → Prop
  | .lookup req limit => req.isHealthCheck = true ∨ v.cache.RowCoversPin (Joint.keyOf req limit)
  | .unfinished _ stop => ∀ req ∈ v.turn, req.isHealthCheck = true → stop ≤ 1
  | _ => True

section
variable [DecidableEq Key] (cfg : SessionConfig Key)

/-- How much of a saved conversation a lookup tries to adopt. -/
def Cache.adoptLen (c : Cache Key Rows Ring) (key : RadixKey) : Nat :=
  if cfg.sessionsEnabled then
    (bestSession cfg (c.spillCurrent cfg).session (c.currentKey cfg) key).2
  else 0

/-- If the pin does not answer, what is adopted fits into a row. -/
def Cache.AdoptionFits (c : Cache Key Rows Ring) (key : RadixKey) : Prop :=
  (∀ ids ∈ c.lastIds, (c.hitLen key ids).1 = 0) → c.adoptLen cfg key ≤ c.pool.maxContextLen

instance (c : Cache Key Rows Ring) (key : RadixKey) : Decidable (c.AdoptionFits cfg key) :=
  inferInstanceAs (Decidable (_ → _))

/-- As `Covered`, and no saved conversation is adopted past the end of a row. -/
def CoveredAndFits (v : Serving Key Rows Ring) (e : ServeEvent Key Rows Ring) : Prop :=
  Covered v e ∧ match e with
    | .lookup req limit => v.cache.AdoptionFits cfg (Joint.keyOf req limit)
    | _ => True

end

instance (v : Serving Key Rows Ring) (e : ServeEvent Key Rows Ring) : Decidable (Covered v e) := by
  cases e <;> dsimp only [Covered] <;> infer_instance

instance [DecidableEq Key] (cfg : SessionConfig Key) (v : Serving Key Rows Ring)
    (e : ServeEvent Key Rows Ring) : Decidable (CoveredAndFits cfg v e) := by
  cases e <;> dsimp only [CoveredAndFits] <;> infer_instance

/-! ## The invariant -/

/-- The cuts a pin may still be resumed at lie within its row.  A cut past the pinned ids is dropped
by the next `_note_cut`, and one at `1` may come from a health check. -/
def CutsWithin (c : Cache Key Rows Ring) (n : Nat) : Prop :=
  ∀ cut ∈ c.cuts, (∀ ids, c.lastIds = some ids → cut ≤ ids.length) → cut ≤ 1 ∨ cut ≤ n

/-- What a pin at `ref` needs. -/
structure PinCovered (c : Cache Key Rows Ring) (ref : Nat) : Prop where
  holds : (c.heap ref).reqPoolIdx ≠ none
  cuts : ∃ ids, c.lastIds = some ids ∧ (ids ≠ [] → 0 < (c.heap ref).kvAllocatedLen) ∧
    ∀ cut ∈ c.cuts, cut < ids.length → cut ≤ 1 ∨ cut ≤ (c.heap ref).kvAllocatedLen

/-- No request runs: only the pin has a row. -/
structure Rest (c : Cache Key Rows Ring) : Prop where
  owners : ∀ a, (c.heap a).reqPoolIdx ≠ none → c.slot = some a
  unpinned : c.slot = none → c.lastIds = none ∧ ∀ cut ∈ c.cuts, cut ≤ 1
  pinned : ∀ ref, c.slot = some ref → PinCovered c ref

/-- A request that was looked up and has not begun to run. -/
structure Matched (c : Cache Key Rows Ring) (req : Req) : Prop where
  lt : req.kv < c.nextKv
  health : req.isHealthCheck = true → c.slot ≠ some req.kv
  other : req.isHealthCheck = false → c.slot = none ∨ c.slot = some req.kv
  cuts : c.slot = some req.kv → CutsWithin c (c.heap req.kv).kvAllocatedLen

/-- A request that runs, or may begin to: only its record and the pin have rows. -/
structure Running (c : Cache Key Rows Ring) (req : Req) : Prop where
  lt : req.kv < c.nextKv
  owners : ∀ a, (c.heap a).reqPoolIdx ≠ none → c.slot = some a ∨ a = req.kv
  unpinned : c.slot = none → c.lastIds = none
  pinned : ∀ ref, c.slot = some ref → PinCovered c ref
  /-- A health check leaves the pin alone. -/
  health : req.isHealthCheck = true →
    c.slot ≠ some req.kv ∧ (c.slot = none → ∀ cut ∈ c.cuts, cut ≤ 1)
  /-- Any other request runs in the pinned row, or there is none. -/
  other : req.isHealthCheck = false → c.slot = none ∨ c.slot = some req.kv
  cuts : req.isHealthCheck = false → ∀ n,
    ((c.heap req.kv).reqPoolIdx ≠ none → (c.heap req.kv).kvAllocatedLen ≤ n) → CutsWithin c n

variable {req : Req}

lemma Matched.running {c : Cache Key Rows Ring} (h : Matched c req) (hrest : Rest c) :
    Running c req := by
  refine ⟨h.lt, fun a ha => .inl (hrest.owners a ha), fun hs => (hrest.unpinned hs).1,
    hrest.pinned, fun hh => ⟨h.health hh, fun hs => (hrest.unpinned hs).2⟩, h.other,
    fun hh n hn => ?_⟩
  rcases h.other hh with hs | hs
  · exact fun cut hcut _ => .inl ((hrest.unpinned hs).2 cut hcut)
  intro cut hcut hle
  have := hn (hrest.pinned _ hs).holds
  exact (h.cuts hs cut hcut hle).imp_right fun _ => by omega

/-- How far the scheduler has come. -/
inductive Stage (c : Cache Key Rows Ring) : Option Req → Bool → Prop
  | idle (hrest : Rest c) : Stage c none false
  | matched (req : Req) (hrest : Rest c) (hreq : Matched c req) : Stage c (some req) false
  | running (req : Req) (hreq : Running c req) : Stage c (some req) true

variable {started : Bool}

lemma Stage.runs {c : Cache Key Rows Ring} (h : Stage c (some req) started) : Running c req := by
  cases h with
  | matched _ hrest hreq => exact hreq.running hrest
  | running _ hreq => exact hreq

variable {turn : Option Req}

lemma Stage.pinned {c : Cache Key Rows Ring} (h : Stage c turn started) :
    ∀ ref, c.slot = some ref → PinCovered c ref := by
  cases h with
  | idle hrest => exact hrest.pinned
  | matched _ hrest _ => exact hrest.pinned
  | running _ hreq => exact hreq.pinned

lemma Stage.rest {c : Cache Key Rows Ring} (h : Stage c turn false) : Rest c := by
  cases h with
  | idle hrest => exact hrest
  | matched _ hrest _ => exact hrest

/-- **The invariant**, over the pages that are accounted for. -/
structure ServingOk (v : Serving Key Rows Ring) (pages : List Nat) : Prop where
  accounts : Accounts v.cache pages
  stage : Stage v.cache v.turn v.started

lemma servingOk_of_initial {v : Serving Key Rows Ring} (h : v.Initial) :
    ServingOk v v.cache.alloc.allFree := by
  have hnone : ∀ a, (v.cache.heap a).reqPoolIdx = none := fun a => by rw [h.heap a]
  refine ⟨⟨h.page_pos, fun a => ?_, fun a ha => absurd (hnone a) ha, ⟨?_, ?_, h.rows⟩, ?_⟩, ?_⟩
  · rw [h.heap a]
    exact ⟨rfl, rfl, fun hne => absurd rfl hne, fun hne => absurd rfl hne,
      fun idx hi => absurd hi (by simp)⟩
  · grind
  · grind
  · have hshare : ∀ a, v.cache.pagesAt a = [] := fun a => pagesOf_none (hnone a)
    rw [Cache.book, ledger, List.flatMap_eq_nil_iff.2 fun a _ => hshare a, List.append_nil]
  · rw [h.turn, h.started]
    refine .idle ⟨fun a ha => absurd (hnone a) ha, fun _ => ⟨h.lastIds, ?_⟩, fun ref href => ?_⟩
    · rw [h.cuts]
      simp
    · simp_all [h.slot]

/-! ## Adopting a saved conversation -/

variable {c c' : Cache Key Rows Ring} {pages : List Nat}

/-- The slot was given a saved conversation, of which its row holds a part. -/
structure Adopted (c c' : Cache Key Rows Ring) (pages : List Nat) (ref : Nat) : Prop where
  accounts : Accounts c' pages
  slot : c'.slot = some ref
  holds : (c'.heap ref).reqPoolIdx ≠ none
  lastIds : c'.lastIds ≠ none
  pos : 0 < (c'.heap ref).kvAllocatedLen
  cuts : ∀ cut ∈ c'.cuts, cut ≤ (c'.heap ref).kvAllocatedLen
  heap : ∀ b, b ≠ ref → c'.heap b = c.heap b
  keep : ∀ r, c.slot = some r → (c.heap r).reqPoolIdx ≠ none → r = ref

variable {ref : Nat}

lemma Adopted.rest (h : Adopted c c' pages ref) (hrest : Rest c) : Rest c' := by
  obtain ⟨ids, hids⟩ := ne_none_iff_exists'.1 h.lastIds
  refine ⟨fun a ha => ?_, fun hnone => ?_, fun r hr => ?_⟩
  · grind [h.slot, h.heap, h.keep, hrest.owners]
  · simp_all [h.slot]
  · rw [h.slot, some_inj] at hr
    subst hr
    exact ⟨h.holds, ids, hids, fun _ => h.pos, fun cut hcut _ => .inr (h.cuts cut hcut)⟩

lemma Adopted.matched (h : Adopted c c' pages ref) (hreq : req.isHealthCheck = false)
    (hkv : req.kv = ref) : Matched c' req := by
  subst hkv
  exact ⟨h.accounts.fresh _ h.holds, fun hh => absurd (hreq.symm.trans hh) (by simp),
    fun _ => .inr h.slot, fun _ cut hcut _ => .inr (h.cuts cut hcut)⟩

/-- The length of a hit lies within the row, if the row covers the pin. -/
lemma hitLen_le {key : RadixKey} {ids : List Token} (hpin : PinCovered c ref)
    (hslot : c.slot = some ref) (hids : c.lastIds = some ids) (hpos : 0 < (c.hitLen key ids).1)
    (hcov : c.RowCoversPin key) :
    (c.hitLen key ids).1 ≤ (c.heap ref).kvAllocatedLen ∧ (c.hitLen key ids).1 ≤ ids.length := by
  rcases hitLen_spec hpos with ⟨hexact, hlen, -⟩ | ⟨hmem, h0, hlt, -, -⟩
  · rw [hlen]
    exact ⟨hcov ref hslot ids hids hexact, le_refl _⟩
  · obtain ⟨-, ids', hids', hrow, hcuts⟩ := hpin
    obtain rfl : ids' = ids := some_inj.1 (hids'.symm.trans hids)
    refine ⟨?_, le_of_lt hlt⟩
    rcases hcuts _ hmem hlt with h1 | hle
    · have := hrow (List.ne_nil_of_length_pos (by omega))
      omega
    · exact hle

/-- Dropping the pin gives its row back, and nothing is left but free rows. -/
lemma rest_dropSlot (h : Accounts c pages)
    (howners : ∀ a, (c.heap a).reqPoolIdx ≠ none → c.slot = some a) (hok : c.dropSlot = .ok c') :
    Accounts c' pages ∧ Rest c' ∧ Unpinned c' ∧ c'.nextKv = c.nextKv := by
  obtain ⟨hu, -, -⟩ := unpinned_dropSlot hok
  have hacc : Accounts c.clearPin pages := h.congr rfl rfl rfl rfl
  obtain ⟨hacc, hother, hsame, hnext, -⟩ := hacc.releaseRecord hok
  refine ⟨hacc, ⟨fun a ha => ?_, fun _ => ⟨hu.lastIds, by rw [hu.cuts]; simp⟩, fun r hr => ?_⟩,
    hu, hnext⟩
  · by_cases hslot : some a = c.slot
    · exact absurd (hsame a hslot) ha
    · rw [hother a hslot] at ha
      exact absurd (howners a ha).symm hslot
  · cases hu.slot.symm.trans hr

section
variable [DecidableEq Key] {cfg : SessionConfig Key} {req req' : Req} {res : Option MatchResult}

lemma adoptSaved_spec {key : Key} {n : Nat} (h : Accounts c pages)
    (hok : c.adoptSaved cfg key n req = .ok (c', req', res)) :
    (res = none ∧ req' = req ∧ NoRow c c' pages n) ∨
      ∃ ref indices, res = some ⟨indices, .session⟩ ∧ req' = { req with kv := ref } ∧
        Adopted c c' pages ref := by
  have hens := h.ensureSlot n
  cases adoptSaved_iff.1 hok with
  | skipped _ => exact .inl ⟨rfl, rfl, .refl h n⟩
  | refused _ _ heq =>
    rw [heq] at hens
    rcases hens with ⟨-, hno⟩ | ⟨hf, -⟩
    · exact .inl ⟨rfl, rfl, hno⟩
    · cases hf
  | @adopted saved ref c1 c2 _ hpos heq hslot1 h2 =>
    rw [heq] at hens
    rcases hens with ⟨hf, -⟩ | ⟨-, hacc, ⟨ref', idx, hslot, hidx, hn, hheap, hkeep⟩, -, -⟩
    · cases hf
    obtain rfl : ref = ref' := some_inj.1 (hslot1.symm.trans hslot)
    have hacc1 : Accounts { c1 with session := c1.session.requestLoad key } pages :=
      hacc.congr rfl rfl rfl rfl
    obtain ⟨hacc2, honly, -, hidx2, hlen2⟩ := hacc1.freeTail hidx hn h2
    have hs := SamePin.freeTail h2
    refine .inr ⟨_, _, rfl, rfl, ⟨hacc2.congr rfl rfl rfl rfl, hs.slot.trans hslot, ?_,
      by simp [Cache.adopt], ?_, fun cut hcut => ?_, fun b hb => (honly.heap b hb).trans (hheap b hb),
      hkeep⟩⟩
    · show (c2.heap _).reqPoolIdx ≠ none
      rw [hidx2]
      simp
    · show 0 < (c2.heap _).kvAllocatedLen
      rw [hlen2]
      exact Nat.pos_of_ne_zero hpos
    · show cut ≤ (c2.heap _).kvAllocatedLen
      rw [hlen2]
      have := (List.mem_filter.1 hcut).2
      rw [decide_eq_true_eq] at this
      exact this.2

lemma spillCurrent_eq (cfg : SessionConfig Key) (c : Cache Key Rows Ring) :
    ∃ session, c.spillCurrent cfg = { c with session } := by
  rw [Cache.spillCurrent]
  split
  · exact ⟨c.session, rfl⟩
  · exact ⟨_, rfl⟩

variable {key : RadixKey}

lemma matchSavedSession_spec (h : Accounts c pages)
    (hok : c.matchSavedSession cfg key req = .ok (c', req', res)) :
    (res = none ∧ req' = req ∧ ∃ n ≤ c.adoptLen cfg key, NoRow c c' pages n) ∨
      ∃ ref indices, res = some ⟨indices, .session⟩ ∧ req' = { req with kv := ref } ∧
        Adopted c c' pages ref := by
  rw [Cache.matchSavedSession] at hok
  split at hok
  · cases hok
    exact .inl ⟨rfl, rfl, 0, Nat.zero_le _, .refl h 0⟩
  · rename_i hon
    obtain ⟨session, hspill⟩ := spillCurrent_eq cfg c
    dsimp only at hok
    rw [hspill] at hok
    have hacc : Accounts { c with session } pages := h.congr rfl rfl rfl rfl
    have hlift : ∀ {n}, NoRow { c with session } c' pages n → NoRow c c' pages n := fun hno =>
      ⟨hno.accounts, hno.heap, hno.nextKv, hno.slot, hno.lastIds, hno.cuts, hno.width⟩
    split at hok
    · cases hok
      exact .inl ⟨rfl, rfl, 0, Nat.zero_le _, hlift (.refl hacc 0)⟩
    · rename_i bestKey bestLen hbest
      have hle : bestLen ≤ c.adoptLen cfg key := by
        rw [Cache.adoptLen, if_pos (by simpa using hon), hspill, hbest]
      rcases adoptSaved_spec hacc hok with ⟨rfl, rfl, hno⟩ | ⟨ref, indices, rfl, rfl, had⟩
      · exact .inl ⟨rfl, rfl, bestLen, hle, hlift hno⟩
      · exact .inr ⟨ref, indices, rfl, rfl, had.accounts, had.slot, had.holds, had.lastIds,
          had.pos, had.cuts, had.heap, had.keep⟩

/-! ## Lookups -/

/-- **A lookup** loses no slot unless it adopts more than a row holds, and leaves the cache at rest
with a request that may run. -/
theorem rest_lookup (h : Accounts c pages) (hrest : Rest c) (hlt : req.kv < c.nextKv)
    (hhc : req.isHealthCheck = true → c.slot ≠ some req.kv)
    (hcov : req.isHealthCheck = true ∨ c.RowCoversPin key)
    (hok : c.matchPrefix cfg key req = .ok (c', req', res)) :
    ∃ pages' lost, (pages' ++ lost).Perm pages ∧
      (c.AdoptionFits cfg key → lost = []) ∧ Accounts c' pages' ∧
      Rest c' ∧ Matched c' req' := by
  obtain ⟨req1, hcase, rfl⟩ := matchPrefix_cases hok
  have hkept : ∀ {c' : Cache Key Rows Ring}, Accounts c' pages → Rest c' → ∀ r, Matched c' r →
      ∃ pages' lost, (pages' ++ lost).Perm pages ∧
        (c.AdoptionFits cfg key → lost = []) ∧ Accounts c' pages' ∧
        Rest c' ∧ Matched c' r :=
    fun ha hr _ hm => ⟨pages, [], by simp, fun _ => rfl, ha, hr, hm⟩
  cases hcase with
  | health hreq =>
    exact hkept h hrest _ ⟨hlt, fun _ => hhc hreq, fun hf => absurd (hreq.symm.trans hf) (by simp),
      fun hs => absurd hs (hhc hreq)⟩
  | stale _ hslot _ hnone _ => exact absurd hnone (hrest.pinned _ hslot).holds
  | unpinned hreq hno hs =>
    have hslot : c.slot = none := by
      rcases hno with hno | hno
      · exact hno
      by_contra hne
      obtain ⟨ref, hslot⟩ := ne_none_iff_exists'.1 hne
      obtain ⟨-, ids, hids, -⟩ := hrest.pinned ref hslot
      cases hids.symm.trans hno
    rcases matchSavedSession_spec h hs with ⟨rfl, rfl, n, hn, hrow⟩ | ⟨ref, _, rfl, rfl, had⟩
    · obtain ⟨pages', lost, hperm, hacc, hlost⟩ := hrow.accounts
      have hslot' := hrow.slot.trans hslot
      have hmiss : ∀ ids ∈ c.lastIds, (c.hitLen key ids).1 = 0 := by
        rw [(hrest.unpinned hslot).1]
        exact fun ids hids => (by cases hids)
      refine ⟨pages', lost, hperm, fun hfit => hlost (hn.trans (hfit hmiss)), hacc,
        ⟨fun a ha => ?_, fun _ => ?_,
        fun ref href => ?_⟩, ⟨?_, fun hh => absurd (hreq.symm.trans hh) (by simp),
        fun _ => .inl hslot', fun hs => ?_⟩⟩
      · grind [hrow.heap, hrest.owners]
      · rw [hrow.lastIds, hrow.cuts]
        exact hrest.unpinned hslot
      · cases hslot'.symm.trans href
      · rw [hrow.nextKv]
        exact hlt
      · cases hslot'.symm.trans hs
    · exact hkept had.accounts (had.rest hrest) _ (had.matched hreq rfl)
  | @missed ref ids c1 _ _ hreq hslot hids hlen hs hdrop =>
    rcases matchSavedSession_spec h hs with ⟨-, rfl, n, hn, hrow⟩ | ⟨_, _, hres, _⟩
    · obtain ⟨pages', lost, hperm, hacc, hlost⟩ := hrow.accounts
      obtain ⟨hacc2, hrest2, hu, hnext⟩ := rest_dropSlot hacc (fun a ha => by
        rw [hrow.heap] at ha
        exact hrow.slot.trans (hrest.owners a ha)) hdrop
      have hmiss : ∀ ids' ∈ c.lastIds, (c.hitLen key ids').1 = 0 := by
        rw [hids]
        rintro _ ⟨⟩
        exact hlen
      refine ⟨pages', lost, hperm, fun hfit => hlost (hn.trans (hfit hmiss)), hacc2, hrest2, ⟨?_,
        fun hh => absurd (hreq.symm.trans hh) (by simp), fun _ => .inl hu.slot, fun hs => ?_⟩⟩
      · rw [hnext, hrow.nextKv]
        exact hlt
      · cases hu.slot.symm.trans hs
    · cases hres
  | adopted hreq _ _ _ hs =>
    rcases matchSavedSession_spec h hs with ⟨hres, _⟩ | ⟨ref, _, _, rfl, had⟩
    · cases hres
    · exact hkept had.accounts (had.rest hrest) _ (had.matched hreq rfl)
  | @hit ref ids c1 hreq hslot hids hholds hpos hfree =>
    obtain ⟨idx, hidx⟩ := ne_none_iff_exists'.1 hholds
    have hcov := hcov.resolve_left (by simp [hreq])
    obtain ⟨hle, hlen⟩ := hitLen_le (hrest.pinned ref hslot) hslot hids hpos hcov
    obtain ⟨hacc, honly, -, hidx1, hlen1⟩ := h.freeTail hidx hle hfree
    have hs := SamePin.freeTail hfree
    generalize (c.hitLen key ids).1 = L at hpos hle hlen hlen1
    have hcuts : ∀ cut ∈ (if L < ids.length then c1.cuts.filter fun cut => decide (cut ≤ L)
        else c1.cuts), cut ≤ ids.length → cut ≤ L := by
      grind
    have hslot1 : c1.slot = some ref := hs.slot.trans hslot
    have hids1 : c1.lastIds = some ids := hs.lastIds.trans hids
    refine ⟨pages, [], by simp, fun _ => rfl, hacc.congr rfl rfl rfl rfl,
      ⟨fun a ha => ?_, fun hnone => ?_, fun r hr => ?_⟩, ?_⟩
    · grind [honly.heap, hrest.owners]
    · cases hslot1.symm.trans hnone
    · obtain rfl : ref = r := some_inj.1 (hslot1.symm.trans hr)
      refine ⟨?_, ids, hids1, fun _ => ?_, fun cut hcut hlt => .inr ?_⟩
      · grind
      · grind
      · grind
    · refine ⟨?_, fun hh => absurd (hreq.symm.trans hh) (by simp), fun _ => .inr hslot1,
        fun _ cut hcut hcle => .inr ?_⟩
      · simpa [honly.nextKv] using h.fresh ref hholds
      rw [hlen1]
      exact hcuts cut hcut (hcle ids hids1)

end
end Sglang.Sticky
