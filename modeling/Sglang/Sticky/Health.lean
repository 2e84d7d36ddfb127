import Sglang.Sticky.Rows

/-!
# Health checks

A health check is a request like any other to the worker, while the scheduler means to keep it away
from the pin: its lookup is not answered and its finish pins nothing.  Two paths are not guarded.
Its prefill starts at `0`, so `csa2_prepare_extend` clears the boundary store and with it every
image of the pinned conversation; and `cache_unfinished_req` records its stop among the cuts of the
pin, after dropping those cuts where its ids and the pinned ones differ.  The next request of the
conversation is then matched as before, and its extend raises (`pin_lost_to_health_check`).

What is left is the case where the store has nothing to lose but an image as long as the prompt of
the health check: `health_check_undisturbed`.
-/

namespace Sglang.Sticky
open Lib List Option Cache Joint Except

variable {Key Rows Ring : Type}

/-! ## Whether a row can be given back -/

/-- An operation on the allocator that succeeds or not by the page size alone, and keeps it. -/
def PageBound (f : Allocator → Except PoolFault Allocator) : Prop :=
  ∀ a b, f a = .ok b → b.pageSize = a.pageSize ∧
    ∀ a', a'.pageSize = a.pageSize → ∃ b', f a' = .ok b'

namespace PageBound

lemma ok {f : Allocator → Allocator} (h : ∀ a, (f a).pageSize = a.pageSize) :
    PageBound fun a => .ok (f a) := by
  intro a b hf
  rw [ok.injEq] at hf
  exact ⟨hf ▸ h a, fun a' _ => ⟨f a', rfl⟩⟩

lemma error (e : PoolFault) : PageBound fun _ => .error e :=
  fun _ _ h => (by cases h)

variable {f g : Allocator → Except PoolFault Allocator}

lemma bind (hf : PageBound f) (hg : PageBound g) : PageBound fun a => f a >>= g := by
  intro a b h
  obtain ⟨a1, h1, h⟩ := bind_ok.1 h
  obtain ⟨hp1, hother1⟩ := hf a a1 h1
  obtain ⟨hp, hother⟩ := hg a1 b h
  refine ⟨hp.trans hp1, fun a' ha' => ?_⟩
  obtain ⟨a1', h1'⟩ := hother1 a' ha'
  obtain ⟨b', h'⟩ := hother a1' (((hf a' a1' h1').1.trans ha').trans hp1.symm)
  exact ⟨b', bind_ok.2 ⟨a1', h1', h'⟩⟩

/-- The page size never changes, so a function may look it up in the allocator it is given. -/
lemma of_pageSize {f : Nat → Allocator → Except PoolFault Allocator} (h : ∀ ps, PageBound (f ps)) :
    PageBound fun a => f a.pageSize a := by
  intro a b hf
  obtain ⟨hp, hother⟩ := h a.pageSize a b hf
  refine ⟨hp, fun a' ha' => ?_⟩
  obtain ⟨b', h'⟩ := hother a' ha'
  exact ⟨b', (congrArg (fun ps => f ps a') ha').trans h'⟩

lemma ite {p : Prop} [Decidable p] (hf : PageBound f) (hg : PageBound g) :
    PageBound fun a => if p then f a else g a := by
  by_cases hp : p
  · simpa only [if_pos hp] using hf
  · simpa only [if_neg hp] using hg

lemma freeSegment (l : List Nat) (n : Nat) : PageBound fun a => a.freeSegment l n :=
  of_pageSize (f := fun ps a => if n % ps = 0 then
      .ok (a.releasePageIds (Allocator.stridedPages ps l)) else .error (.segmentStart n))
    fun _ => ite (ok fun a => pageSize_releasePageIds a _) (error _)

lemma freeFullSegment (l : List Nat) (n : Nat) : PageBound fun a => a.freeFullSegment l n := by
  refine of_pageSize (f := fun ps a => if n % ps = 0 then .ok (a.free l)
    else .error (.segmentStart n)) fun _ => ite (ok fun a => ?_) (error _)
  rw [Allocator.free]
  split
  · rfl
  · exact pageSize_releasePageIds _ _

/-- The loop of `free_segments` fails or succeeds by the segments and the page size alone. -/
lemma freeEach {release : Allocator → List Nat → Nat → Except PoolFault Allocator}
    (hrel : ∀ l n, PageBound fun a => release a l n) : ∀ (segments : List (List Nat × Nat))
    (prevEnd : Option Nat), PageBound fun a => Allocator.freeEach release a prevEnd segments
  | [], _ => ok fun _ => rfl
  | (l, n) :: rest, prevEnd => by
    have hrest := freeEach hrel rest
    exact ite (hrest prevEnd) (of_pageSize (f := fun ps a =>
      if prevEnd.any fun e => decide (n / ps ≤ (e - 1) / ps) then
        .error (.segmentShared n (prevEnd.getD 0))
      else release a l n >>= fun a => Allocator.freeEach release a (some (n + l.length)) rest)
      fun _ => ite (error _) (bind (hrel l n) (hrest _)))

/-- Whether a row can be given back does not depend on which pages are free. -/
lemma freeKvRow (pool : ReqToTokenPool) (kv : ReqKvInfo) (ranges : List (Nat × Nat)) :
    PageBound fun a => freeKvRow pool a kv ranges := by
  unfold Sticky.freeKvRow freeKvRowSegments
  cases kv.reqPoolIdx with
  | none => exact error _
  | some idx =>
    dsimp only
    generalize List.map _ (List.filter (fun s : List Nat × Nat => decide (0 < _)) _) = dead
    generalize List.map _ (List.filter (fun s : List Nat × Nat => decide (_ < s.1.length)) _) = alive
    have hrest : PageBound fun a => if alive = [] then .ok a else a.freeSegments alive :=
      ite (ok fun _ => rfl) (freeEach freeSegment _ _)
    exact of_pageSize (f := fun ps a =>
      if dead ≠ [] ∧ alive ≠ [] ∧ kv.swaEvictedSeqlen % ps ≠ 0 then
        .error (.floorSplitsPage kv.swaEvictedSeqlen ps)
      else if dead = [] then .ok a >>= fun a => if alive = [] then .ok a else a.freeSegments alive
      else a.freeFullSegments dead >>= fun a => if alive = [] then .ok a else a.freeSegments alive)
      fun _ => ite (error _) (ite (bind (ok fun _ => rfl) hrest)
        (bind (freeEach freeFullSegment _ _) hrest))

end PageBound

/-! ## Caches a lookup cannot tell apart -/

/-- The same record at `ref`, with the same row. -/
structure SameRow (ref : Nat) (c c' : Cache Key Rows Ring) : Prop where
  width : c'.pool.maxContextLen = c.pool.maxContextLen
  pageSize : c'.alloc.pageSize = c.alloc.pageSize
  record : c'.heap ref = c.heap ref
  row : ∀ idx, (c.heap ref).reqPoolIdx = some idx → c'.pool.rows idx = c.pool.rows idx

/-- The same pin at `ref`, and room for the same allocations. -/
structure Alike (ref : Nat) (c c' : Cache Key Rows Ring) : Prop extends SameRow ref c c' where
  slot : c'.slot = c.slot
  lastIds : c'.lastIds = c.lastIds
  lastExtraKey : c'.lastExtraKey = c.lastExtraKey
  lastCacheSalt : c'.lastCacheSalt = c.lastCacheSalt
  cuts : c'.cuts = c.cuts
  session : c'.session = c.session
  pages : c.alloc.pageSize = 1 → c'.alloc.allFree.length = c.alloc.allFree.length

variable {c c' c₁ : Cache Key Rows Ring} {ref idx n : Nat}

lemma freePoolRow_of_holds (hidx : (c.heap ref).reqPoolIdx = some idx) :
    ∃ c', c.freePoolRow ref = .ok c' := by
  simp [freePoolRow, hidx]

namespace SameRow

lemma freeRow {ranges : List (Nat × Nat)} (h : SameRow ref c c')
    (hok : c.freeRow ref ranges = .ok c₁) : ∃ c1', c'.freeRow ref ranges = .ok c1' := by
  rw [Cache.freeRow, bind_ok] at hok
  obtain ⟨b, hb, -⟩ := hok
  obtain ⟨b', hb'⟩ := (PageBound.freeKvRow c.pool (c.heap ref) ranges _ b hb).2 _ h.pageSize
  -- The row reads the same in both pools.
  have hsame : freeKvRow c'.pool c'.alloc (c.heap ref) ranges =
      freeKvRow c.pool c'.alloc (c.heap ref) ranges := by
    rw [freeKvRow, freeKvRow]
    cases hidx : (c.heap ref).reqPoolIdx with
    | none => rfl
    | some idx =>
      have hslice : ∀ r : Nat × Nat, c'.pool.slice idx r.1 r.2 = c.pool.slice idx r.1 r.2 :=
        fun r => by rw [ReqToTokenPool.slice, ReqToTokenPool.slice, h.width, h.row idx hidx]
      simp only [hslice]
  refine ⟨{ c' with alloc := b' }, ?_⟩
  rw [Cache.freeRow, bind_ok]
  exact ⟨b', by rw [h.record, hsame]; exact hb', rfl⟩

lemma freeTail (h : SameRow ref c c') (hok : c.freeTail ref n = .ok c₁) :
    ∃ c1', c'.freeTail ref n = .ok c1' := by
  rw [Cache.freeTail, bind_ok] at hok
  obtain ⟨c2, h2, -⟩ := hok
  have haligned : ∃ c2', c'.freeKvAligned ref n (c'.heap ref).kvAllocatedLen = .ok c2' := by
    rw [h.record]
    rw [freeKvAligned] at h2 ⊢
    split
    · exact ⟨c', rfl⟩
    · grind [nextPage, Cache.pageSize, h.pageSize, h.freeRow]
  obtain ⟨c2', h2'⟩ := haligned
  exact ⟨_, bind_ok.2 ⟨c2', h2', rfl⟩⟩

lemma dropSlot (h : SameRow ref c c') (href : c.slot = some ref) (href' : c'.slot = some ref)
    (hok : c.dropSlot = .ok c₁) : ∃ c1', c'.dropSlot = .ok c1' := by
  have hclear : SameRow ref c.clearPin c'.clearPin := ⟨h.width, h.pageSize, h.record, h.row⟩
  rw [Cache.dropSlot, href, releaseRecord] at hok
  rw [Cache.dropSlot, href', releaseRecord, hclear.record]
  split
  · rename_i hholds
    rw [if_pos hholds, bind_ok] at hok
    obtain ⟨c2, h2, -⟩ := hok
    obtain ⟨c2', h2'⟩ := hclear.freeRow h2
    obtain ⟨idx, hidx⟩ := isSome_iff_exists.1 hholds
    have hidx' : (c2'.heap ref).reqPoolIdx = some idx := by
      rw [(heap_freeRow h2').1, hclear.record, hidx]
    obtain ⟨c3', h3'⟩ := freePoolRow_of_holds hidx'
    exact ⟨c3', bind_ok.2 ⟨c2', h2', h3'⟩⟩
  · exact ⟨_, rfl⟩

end SameRow

/-- Whether there are `need` slots does not depend on how the free pages are listed. -/
lemma alloc_isSome (a : Allocator) (need : Nat) :
    (a.alloc need).1.isSome ↔ need / a.pageSize ≤ a.allFree.length := by
  grind [Allocator.allFree, Allocator.alloc, Allocator.mergeAndSortFree, length_mergeSort]

/-- What `_ensure_slot` does to a pin with a row. -/
inductive Ensures (ref n : Nat) (c c' : Cache Key Rows Ring) : Bool × Cache Key Rows Ring →
    Bool × Cache Key Rows Ring → Prop
  /-- The row is long enough, or nothing is tried. -/
  | same (b : Bool) : Ensures ref n c c' (b, c) (b, c')
  /-- There are too few slots, or the row is too short for them. -/
  | short {alloc alloc' : Allocator} (hps : alloc'.pageSize = alloc.pageSize) :
      Ensures ref n c c' (false, { c with alloc }) (false, { c' with alloc := alloc' })
  /-- The row is made as long as needed. -/
  | grown {alloc alloc' : Allocator} {pool pool' : ReqToTokenPool} {kv kv' : ReqKvInfo}
      (hkv : kv.reqPoolIdx = (c.heap ref).reqPoolIdx)
      (hkv' : kv'.reqPoolIdx = (c'.heap ref).reqPoolIdx) (hn : kv'.kvAllocatedLen = n)
      (hw : pool.maxContextLen = c.pool.maxContextLen)
      (hw' : pool'.maxContextLen = c'.pool.maxContextLen) :
      Ensures ref n c c' (true, { c with alloc, pool }.setKv ref kv)
        (true, { c' with alloc := alloc', pool := pool' }.setKv ref kv')

/-- Two caches that are alike ensure a slot alike: both succeed or both give up. -/
lemma ensures_ensureSlot (href : c.slot = some ref) (hidx : (c.heap ref).reqPoolIdx = some idx)
    (h : Alike ref c c') (n : Nat) : Ensures ref n c c' (c.ensureSlot n) (c'.ensureSlot n) := by
  have href' : c'.slot = some ref := h.slot.trans href
  have hkv : (c.heap ref).reqPoolIdx = (c'.heap ref).reqPoolIdx := by rw [h.record]
  have hidx' : (c'.heap ref).reqPoolIdx = some idx := hkv.symm.trans hidx
  have hbind : (c.slot.bind fun ref => (c.heap ref).reqPoolIdx.map fun idx => (ref, idx)) =
      some (ref, idx) := by simp [href, hidx]
  have hbind' : (c'.slot.bind fun ref => (c'.heap ref).reqPoolIdx.map fun idx => (ref, idx)) =
      some (ref, idx) := by simp [href', hidx']
  rw [ensureSlot, ensureSlot, hbind, hbind']
  dsimp only
  rw [pageSize, pageSize, h.pageSize, h.record]
  by_cases hle : n ≤ (c.heap ref).kvAllocatedLen
  · rw [if_pos hle, if_pos hle]
    exact .same true
  rw [if_neg hle, if_neg hle]
  by_cases hps : c.alloc.pageSize ≠ 1
  · rw [if_pos hps, if_pos hps]
    exact .same false
  rw [if_neg hps, if_neg hps]
  rw [Decidable.not_not] at hps
  have hsome := alloc_isSome c.alloc (n - (c.heap ref).kvAllocatedLen)
  have hsome' := alloc_isSome c'.alloc (n - (c.heap ref).kvAllocatedLen)
  rw [h.pageSize, h.pages hps, ← hsome] at hsome'
  have hpage := ((alloc_spec (h.pageSize.trans hps) (n - (c.heap ref).kvAllocatedLen)).1).trans
    (alloc_spec hps (n - (c.heap ref).kvAllocatedLen)).1.symm
  generalize c.alloc.alloc (n - (c.heap ref).kvAllocatedLen) = r at hsome' hpage
  generalize c'.alloc.alloc (n - (c.heap ref).kvAllocatedLen) = r' at hsome' hpage
  obtain ⟨flat, alloc⟩ := r
  obtain ⟨flat', alloc'⟩ := r'
  have hpage : alloc'.pageSize = alloc.pageSize := hpage
  cases flat with
  | none =>
    cases flat' with
    | none => exact .short hpage
    | some flat' => exact absurd hsome' (by simp)
  | some flat =>
    cases flat' with
    | none => exact absurd hsome' (by simp)
    | some flat' =>
      dsimp only
      rw [h.width]
      split
      · exact .short hpage
      · exact .grown rfl hkv rfl rfl rfl

/-- A tail that is not there is cut without an error. -/
lemma freeTail_of_le (h : (c.heap ref).kvAllocatedLen ≤ n) : ∃ c', c.freeTail ref n = .ok c' := by
  rw [freeTail, freeKvAligned, if_pos h]
  exact ⟨_, rfl⟩

/-- How many indices a lookup returned. -/
def answered (res : Option MatchResult) : Option Nat := res.map fun m => m.deviceIndices.length

section
variable [DecidableEq Key] {cfg : SessionConfig Key}

/-- The same session state, and the same slot in the same row. -/
structure SameOutcome (ref : Nat) (c c' : Cache Key Rows Ring) : Prop where
  session : c'.session = c.session
  row : SameRow ref c c'
  slot : c.slot = some ref
  slot' : c'.slot = some ref

variable {req r₁ : Req} {res : Option MatchResult}

/-- Two caches that are alike adopt the same saved conversation, and ask for the same load. -/
lemma alike_adoptSaved {key : Key} (href : c.slot = some ref)
    (hidx : (c.heap ref).reqPoolIdx = some idx) (h : Alike ref c c')
    (hok : c.adoptSaved cfg key n req = .ok (c₁, r₁, res)) (req' : Req) :
    ∃ c1' r1' res', c'.adoptSaved cfg key n req' = .ok (c1', r1', res') ∧
      c1'.session = c₁.session ∧ answered res' = answered res ∧
      (res = none → SameOutcome ref c₁ c1') := by
  have href' : c'.slot = some ref := h.slot.trans href
  have hens := ensures_ensureSlot href hidx h n
  cases adoptSaved_iff.1 hok with
  | skipped hskip =>
    exact ⟨c', req', none, adoptSaved_iff.2 (.skipped (h.session ▸ hskip)), h.session, rfl,
      fun _ => ⟨h.session, h.toSameRow, href, href'⟩⟩
  | refused hsaved hn heq =>
    rw [heq] at hens
    have hrefused : ∀ d', c'.ensureSlot n = (false, d') →
        c'.adoptSaved cfg key n req' = .ok (d', req', none) := fun d' hd' =>
      adoptSaved_iff.2 (.refused (h.session ▸ hsaved) hn hd')
    generalize hr' : c'.ensureSlot n = r' at hens
    cases hens with
    | same _ => exact ⟨c', req', none, hrefused _ hr', h.session, rfl,
        fun _ => ⟨h.session, h.toSameRow, href, href'⟩⟩
    | @short alloc alloc' hps => exact ⟨{ c' with alloc := alloc' }, req', none, hrefused _ hr',
        h.session, rfl, fun _ => ⟨h.session, ⟨h.width, hps, h.record, h.row⟩, href, href'⟩⟩
  | @adopted saved ref1 d c2 hsaved hn heq hslot htail =>
    rw [heq] at hens
    -- Both rows are long enough now, and are cut to `n`.
    have hadopted : ∀ d', c'.ensureSlot n = (true, d') → d'.slot = some ref →
        d'.session = d.session → d'.pool.maxContextLen = d.pool.maxContextLen → d.slot = some ref →
        (d.heap ref).reqPoolIdx = some idx → (d'.heap ref).reqPoolIdx = some idx →
        (∀ c2, { d with session := d.session.requestLoad key }.freeTail ref n = .ok c2 →
          ∃ c2', { d' with session := d'.session.requestLoad key }.freeTail ref n = .ok c2') →
        ∃ c1' r1' res', c'.adoptSaved cfg key n req' = .ok (c1', r1', res') ∧
          c1'.session = (c2.adopt saved n).session ∧
          answered res' = answered (some ⟨c2.slotIndices ref1 n, .session⟩) ∧
          ((some ⟨c2.slotIndices ref1 n, .session⟩ : Option MatchResult) = none →
            SameOutcome ref (c2.adopt saved n) c1') := by
      intro d' hd' hslot' hsess hw hslotd hidxd hidxd' hcut
      obtain rfl : ref1 = ref := some_inj.1 (hslot.symm.trans hslotd)
      obtain ⟨c2', htail'⟩ := hcut c2 htail
      refine ⟨_, _, _, adoptSaved_iff.2 (.adopted (h.session ▸ hsaved) hn hd' hslot' htail'), ?_, ?_,
        fun hno => (by cases hno)⟩
      · show c2'.session = c2.session
        rw [(SamePin.freeTail htail').session, (SamePin.freeTail htail).session]
        rw [hsess]
      · rw [answered, answered, map_some, map_some, some_inj,
          length_slotIndices ((freeTail_reqPoolIdx htail' _).trans hidxd'),
          length_slotIndices ((freeTail_reqPoolIdx htail _).trans hidxd),
          (SamePin.freeTail htail').width, (SamePin.freeTail htail).width]
        exact congrArg (min n) hw
    generalize hr' : c'.ensureSlot n = r' at hens
    have hidx' : (c'.heap ref).reqPoolIdx = some idx := by rw [h.record, hidx]
    cases hens with
    | same _ =>
      have hrow : SameRow ref { c with session := c.session.requestLoad key }
          { c' with session := c'.session.requestLoad key } :=
        ⟨h.width, h.pageSize, h.record, h.row⟩
      exact hadopted c' hr' href' h.session h.width href hidx hidx' fun _ => hrow.freeTail
    | grown hkv hkv' hlen hw hw' =>
      refine hadopted _ hr' href' h.session ((hw'.trans h.width).trans hw.symm) href ?_ ?_
        fun _ _ => freeTail_of_le ?_
      · rw [heap_setKv_self, hkv, hidx]
      · rw [heap_setKv_self, hkv', hidx']
      · show ((setKv _ ref _).heap ref).kvAllocatedLen ≤ n
        rw [heap_setKv_self, hlen]

variable {key : RadixKey}

/-- What a lookup with saved sessions does, on two caches it cannot tell apart. -/
lemma alike_matchSavedSession (href : c.slot = some ref)
    (hidx : (c.heap ref).reqPoolIdx = some idx) (h : Alike ref c c')
    (hok : c.matchSavedSession cfg key req = .ok (c₁, r₁, res)) (req' : Req) :
    ∃ c1' r1' res', c'.matchSavedSession cfg key req' = .ok (c1', r1', res') ∧
      c1'.session = c₁.session ∧ answered res' = answered res ∧
      (res = none → SameOutcome ref c₁ c1') := by
  have hcur : c'.currentKey cfg = c.currentKey cfg := by
    rw [currentKey, currentKey, h.lastIds, h.lastExtraKey, h.lastCacheSalt]
  have hspill : Alike ref (c.spillCurrent cfg) (c'.spillCurrent cfg) ∧
      (c.spillCurrent cfg).slot = some ref ∧
      ((c.spillCurrent cfg).heap ref).reqPoolIdx = some idx := by
    rw [spillCurrent, spillCurrent, hcur]
    split
    · exact ⟨h, href, hidx⟩
    refine ⟨⟨⟨h.width, h.pageSize, h.record, h.row⟩, h.slot, h.lastIds, h.lastExtraKey,
      h.lastCacheSalt, h.cuts, ?_, h.pages⟩, href, hidx⟩
    rw [h.session, h.lastIds, h.cuts, h.lastExtraKey, h.lastCacheSalt]
  obtain ⟨halike, hslot, hrow⟩ := hspill
  rw [matchSavedSession] at hok ⊢
  split
  · rename_i hoff
    rw [if_pos hoff, ok.injEq, Prod.mk.injEq, Prod.mk.injEq] at hok
    obtain ⟨rfl, rfl, rfl⟩ := hok
    exact ⟨c', req', none, rfl, h.session, rfl,
      fun _ => ⟨h.session, h.toSameRow, href, h.slot.trans href⟩⟩
  rename_i hon
  rw [if_neg hon] at hok
  dsimp only at hok ⊢
  rw [hcur, halike.session]
  split at hok
  · cases hok
    exact ⟨_, req', none, rfl, halike.session, rfl,
      fun _ => ⟨halike.session, halike.toSameRow, hslot, halike.slot.trans hslot⟩⟩
  · exact alike_adoptSaved hslot hrow halike hok req'

/-- A lookup, by the answer of `_try_hit`. -/
lemma matchPrefix_of_tryHit {r : Req} (h : c.tryHit cfg key req = .ok (c₁, r, res)) :
    c.matchPrefix cfg key req =
      .ok (c₁, { r with prefixIndices := (res.map fun m => m.deviceIndices).getD [] }, res) := by
  simp_all [matchPrefix]

variable {ids : List Token}

/-- `_try_hit` on a pin with a row. -/
lemma tryHit_pinned (hreq : req.isHealthCheck = false) (href : c.slot = some ref)
    (hids : c.lastIds = some ids) (hidx : (c.heap ref).reqPoolIdx = some idx) :
    c.tryHit cfg key req = if (c.hitLen key ids).1 = 0 then do
        let (c, req, saved) ← c.matchSavedSession cfg key req
        match saved with
        | none => return (← c.dropSlot, req, none)
        | some m => return (c, req, some m)
      else c.hit ref (c.hitLen key ids).1 ids.length
        (if (c.hitLen key ids).2 then .exact else .cut) req := by
  have hholds : (!(c.heap ref).holdsKv) = false := by rw [ReqKvInfo.holdsKv, hidx]; rfl
  rw [tryHit, if_neg (by rw [hreq]; simp), href, hids]
  exact if_neg (by rw [hholds]; simp)

/-- Two caches that are alike give the same answer to every lookup; this is where what a health
check leaves behind is compared with what was there before. -/
lemma alike_matchPrefix (href : c.slot = some ref) (hids : c.lastIds = some ids)
    (hidx : (c.heap ref).reqPoolIdx = some idx) (h : Alike ref c c')
    (hok : c.matchPrefix cfg key req = .ok (c₁, r₁, res)) {req' : Req} (hrid : req'.rid = req.rid) :
    ∃ c1' r1' res', c'.matchPrefix cfg key req' = .ok (c1', r1', res') ∧
      c1'.session = c₁.session ∧ r1'.prefixIndices.length = r₁.prefixIndices.length := by
  have hhealth : req'.isHealthCheck = req.isHealthCheck := by
    rw [Req.isHealthCheck, Req.isHealthCheck, hrid]
  have href' : c'.slot = some ref := h.slot.trans href
  have hids' : c'.lastIds = some ids := h.lastIds.trans hids
  have hidx' : (c'.heap ref).reqPoolIdx = some idx := by rw [h.record, hidx]
  have hlen : c'.hitLen key ids = c.hitLen key ids := by
    rw [hitLen, hitLen, h.lastExtraKey, h.lastCacheSalt, h.cuts]
  -- What `_try_hit` answers on the second cache.
  have hgoal : ∀ {d' r' res'}, c'.tryHit cfg key req' = .ok (d', r', res') →
      d'.session = c₁.session →
      (answered res').getD 0 = r₁.prefixIndices.length → ∃ c1' r1' res',
      c'.matchPrefix cfg key req' = .ok (c1', r1', res') ∧ c1'.session = c₁.session ∧
        r1'.prefixIndices.length = r₁.prefixIndices.length := by
    intro d' r' res' htry hsess hans
    refine ⟨d', _, res', matchPrefix_of_tryHit htry, hsess, ?_⟩
    rw [← hans]
    cases res' <;> rfl
  obtain ⟨r2, hcase, rfl⟩ := matchPrefix_cases hok
  cases hcase with
  | health hreq =>
    have htry : c'.tryHit cfg key req' = .ok (c', req', none) := by
      rw [tryHit, if_pos (hhealth.trans hreq)]
    exact hgoal htry h.session rfl
  | stale _ hs _ hnone _ =>
    grind
  | unpinned _ hno _ =>
    grind
  | missed hreq hs hi hzero hsaved hdrop =>
    obtain rfl := some_inj.1 (hi.symm.trans hids)
    obtain ⟨d', r', res', hsaved', hsess, hans, hsame⟩ :=
      alike_matchSavedSession href hidx h hsaved req'
    have hout := hsame rfl
    obtain ⟨d'', hdrop'⟩ := hout.row.dropSlot hout.slot hout.slot' hdrop
    have hres' : res' = none := map_eq_none_iff.1 hans
    have htry : c'.tryHit cfg key req' = .ok (d'', r', none) := by
      rw [tryHit_pinned (hhealth.trans hreq) href' hids' hidx', hlen, if_pos hzero, bind_ok]
      refine ⟨_, hsaved', ?_⟩
      rw [hres']
      exact bind_ok.2 ⟨d'', hdrop', rfl⟩
    refine hgoal htry ?_ rfl
    rw [(unpinned_dropSlot hdrop').2.1, (unpinned_dropSlot hdrop).2.1, hsess]
  | @adopted _ _ _ _ m hreq hs hi hzero hsaved =>
    obtain rfl := some_inj.1 (hi.symm.trans hids)
    obtain ⟨d', r', res', hsaved', hsess, hans, -⟩ :=
      alike_matchSavedSession href hidx h hsaved req'
    obtain ⟨m', rfl, hm⟩ := map_eq_some_iff.1 hans
    have htry : c'.tryHit cfg key req' = .ok (d', r', some m') := by
      rw [tryHit_pinned (hhealth.trans hreq) href' hids' hidx', hlen, if_pos hzero, bind_ok]
      exact ⟨_, hsaved', rfl⟩
    exact hgoal htry hsess hm
  | @hit ref1 ids1 d hreq hs hi _ hpos htail =>
    obtain rfl := some_inj.1 (hs.symm.trans href)
    obtain rfl := some_inj.1 (hi.symm.trans hids)
    obtain ⟨d', htail'⟩ := h.toSameRow.freeTail htail
    have htry : ∃ d'' r' e, c'.tryHit cfg key req' =
        .ok (d'', r', some ⟨d'.slotIndices ref1 (c.hitLen key ids1).1, e⟩) ∧
        d''.session = d'.session := by
      rw [tryHit_pinned (hhealth.trans hreq) href' hids' hidx', hlen,
        if_neg (ne_of_gt hpos), hit, htail']
      split
      · exact ⟨_, _, _, rfl, rfl⟩
      · exact ⟨_, _, _, rfl, rfl⟩
    obtain ⟨d'', r', e, htry, hsess⟩ := htry
    refine hgoal htry ?_ ?_
    · rw [hsess, (SamePin.freeTail htail').session, h.session]
      exact (SamePin.freeTail htail).session.symm
    · show (d'.slotIndices ref1 _).length = (d.slotIndices ref1 _).length
      rw [length_slotIndices ((freeTail_reqPoolIdx htail' _).trans hidx'),
        length_slotIndices ((freeTail_reqPoolIdx htail _).trans hidx),
        (SamePin.freeTail htail').width, (SamePin.freeTail htail).width, h.width]

end

/-! ## One health check -/

/-- The record of a request whose `n` positions are allocated and committed. -/
def filledKv (idx n : Nat) : ReqKvInfo :=
  { reqPoolIdx := some idx, kvAllocatedLen := n, kvCommittedLen := n }

/-- The row of a fresh record: one that was free, filled from the free pages. -/
lemma growRow_fresh (hfresh : c.heap ref = {}) (h : c.growRow ref n n = some c') :
    ∃ (idx : Nat) (pool : ReqToTokenPool) (alloc : Allocator) (locs : List Nat),
      c.pool.freeSlots = pool.freeSlots ++ [idx] ∧
      pool.rows = c.pool.rows ∧ pool.maxContextLen = c.pool.maxContextLen ∧
      n ≤ c.pool.maxContextLen ∧
      c.alloc.allocExtend 0 n (pool.rows idx (0 - 1)) = (some locs, alloc) ∧
      c' = { c with alloc, pool := pool.write idx 0 locs }.setKv ref (filledKv idx n) := by
  rw [growRow] at h
  split at h
  · cases h
  rename_i idx pool start hrow
  have hrow := rowFor_of_rowToGrow hrow
  rcases hrow.own with ⟨hidx, -, -⟩ | ⟨-, rfl, hfree⟩
  · grind
  split at h
  · cases h
  rename_i hbound
  rw [not_or, not_lt, not_lt] at hbound
  split at h
  · cases h
  rename_i locs alloc hext
  rw [some_inj] at h
  refine ⟨idx, pool, alloc, locs, hfree, hrow.rows, hrow.width, hrow.width ▸ hbound.2, hext, ?_⟩
  rw [← h, hfresh]
  rfl

/-- A health check gives its whole row back, and nothing of it is pinned. -/
lemma releaseKvCache_health {req req' : Req} (hreq : req.isHealthCheck = true)
    (hkv : c.heap req.kv = filledKv idx n) (h : c.releaseKvCache req = .ok (c', req')) :
    freeKvRow c.pool c.alloc (filledKv idx n) [(0, n)] = .ok c'.alloc ∧
      c'.pool = c.pool.freeRows [idx] ∧ (∀ a ≠ req.kv, c'.heap a = c.heap a) ∧
      c'.nextKv = c.nextKv ∧ SamePin c c' := by
  cases (releaseKvCache_cases h).2.2 with
  | aborted hno _ _ _ _ _ => cases hno.symm.trans hreq
  | finished hno _ _ => cases hno.symm.trans hreq
  | @freed c0 c₁ c2 c3 h0 h1 h2 h3 =>
    obtain rfl : c0 = c := by
      grind
    rw [innerFinished, hkv, freeRow, bind_ok] at h1
    obtain ⟨alloc, hfree, h1⟩ := h1
    rw [pure_ok] at h1
    subst h1
    rw [hkv] at hfree
    -- Nothing is allocated past what is committed.
    have hpast : ¬ ({ c0 with alloc } : Cache Key Rows Ring).nextPage n < n := by
      grind [nextPage, le_ceilAlign]
    rw [freePastOwned, show ({ c0 with alloc } : Cache Key Rows Ring).heap req.kv = _ from hkv]
      at h2
    replace h2 := (if_neg hpast).symm.trans h2
    rw [ok.injEq] at h2
    subst h2
    rw [freePoolRow, show ({ c0 with alloc } : Cache Key Rows Ring).heap req.kv = _ from hkv]
      at h3
    replace h3 : ok (({ c0 with alloc, pool := c0.pool.freeRows [idx] } :
      Cache Key Rows Ring).setKv req.kv { filledKv idx n with reqPoolIdx := none }) =
        (.ok c3) := h3
    rw [ok.injEq] at h3
    subst h3
    refine ⟨hfree, rfl, fun a ha => ?_, rfl, ⟨rfl, rfl, rfl, rfl, rfl, rfl, rfl⟩⟩
    rw [heap_setKv_of_ne _ _ ha, heap_setKv_of_ne _ _ ha]

/-- The events of one health check: lookup, prefill, stop and finish. -/
def healthCheck (req : Req) (limit : Option Nat) (sampled output : List Token)
    (finishedLen : Option Nat) : List Event :=
  [.request req limit, .extend req.originInputIds.length, .unfinished sampled,
    .finish output finishedLen]

/-- A hand-off was served, or there was none. -/
structure Served (session session' : SessionState Key Rows Ring) : Prop where
  spill : session'.spill = none
  load : session'.load = none
  none : session.spill = none → session.load = none → session' = session

/-- What a health check with prompt `h` leaves behind: a store with one image, of the length of the
prompt, and a stop of that length among the cuts. -/
structure AfterCheck (fwd : Forward Rows Ring) (h sampled : List Token)
    (j j' : Joint Key Rows Ring) : Prop where
  idle : j.turn = none
  turn : j'.turn = none
  store : ∃ rings, j'.store = Store.empty.backupTip rings h.length true
  live : j'.live = fwd j.live 0 h
  pos : 0 < h.length
  fits : h.length ≤ j.cache.pool.maxContextLen
  slot : j'.cache.slot = j.cache.slot
  lastIds : j'.cache.lastIds = j.cache.lastIds
  lastExtraKey : j'.cache.lastExtraKey = j.cache.lastExtraKey
  lastCacheSalt : j'.cache.lastCacheSalt = j.cache.lastCacheSalt
  session : Served j.cache.session j'.cache.session
  cuts : j'.cache.cuts = noteCut j.cache.cuts j.cache.lastIds (h ++ sampled) (some h.length)
  width : j'.cache.pool.maxContextLen = j.cache.pool.maxContextLen
  pageSize : j'.cache.alloc.pageSize = j.cache.alloc.pageSize
  pages : j.cache.alloc.pageSize = 1 → j'.cache.alloc.allFree.length = j.cache.alloc.allFree.length
  heap : ∀ a < j.cache.nextKv, j'.cache.heap a = j.cache.heap a
  rows : ∀ idx, idx ∉ j.cache.pool.freeSlots → j'.cache.pool.rows idx = j.cache.pool.rows idx

variable {a : Allocator} {locs : List Nat}

lemma pageSize_allocExtend {a' : Allocator} {start stop lastLoc : Nat}
    (h : a.allocExtend start stop lastLoc = (some locs, a')) : a'.pageSize = a.pageSize := by
  grind [Allocator.allocExtend, allFree_ite_merge]

/-- Taking `n` slots for a fresh row and giving them back leaves as many free. -/
lemma length_allFree_check {b b' : Allocator} {pool : ReqToTokenPool} (hps : a.pageSize = 1)
    (hn : n ≤ pool.maxContextLen)
    (hext : a.allocExtend 0 n (pool.rows idx (0 - 1)) = (some locs, b))
    (hfree : freeKvRow (pool.write idx 0 locs) b (filledKv idx n) [(0, n)] = .ok b') :
    b'.allFree.length = a.allFree.length := by
  have hpos : 0 < a.pageSize := by omega
  obtain ⟨hpage, -, hperm⟩ := allocExtend_spec hpos (Nat.zero_le n) hext
    fun p hp => absurd hp (Nat.not_lt_zero p)
  obtain ⟨b1, hb1, -, hperm'⟩ := freeKvRow_spec (show 0 < b.pageSize by omega)
    (show (filledKv idx n).reqPoolIdx = some idx from rfl) rfl
    (show 0 % b.pageSize = 0 from Nat.zero_mod _)
    (show n ≤ (pool.write idx 0 locs).maxContextLen from hn)
  obtain rfl : b1 = b' := ok.inj (hb1.symm.trans hfree)
  have hlen := hperm.length_eq
  have hlen' := hperm'.length_eq
  rw [length_append, length_append, length_map, length_map, length_range, length_range] at hlen
  rw [length_append, length_map, length_range', hpage, Nat.zero_div] at hlen'
  have hzero : ceilDiv 0 a.pageSize = 0 := by rw [hps]; rfl
  omega

/-- An empty hand-off gives nothing to do. -/
lemma takeHandoff_none {session : SessionState Key Rows Ring} (hspill : session.spill = none)
    (hload : session.load = none) : session.takeHandoff = ((none, none), session) := by
  obtain ⟨spill, load, metas, blobs⟩ := session
  obtain rfl : spill = none := hspill
  obtain rfl : load = none := hload
  rfl

section
variable [DecidableEq Key] {cfg : SessionConfig Key} {fwd : Forward Rows Ring}
  {j j' : Joint Key Rows Ring}

lemma served_takeSpill (cfg : SessionConfig Key) (session : SessionState Key Rows Ring)
    (s : Store Ring) (live : Live Rows Ring) :
    Served session (takeSpill cfg session.takeHandoff.2 s live session.spill).1 := by
  obtain ⟨spill, load, metas, blobs⟩ := session
  cases spill with
  | none => exact ⟨rfl, rfl, fun _ hload => by cases hload; rfl⟩
  | some key =>
    have hsave : ∀ (session : SessionState Key Rows Ring) s,
        (session.saveResident cfg s live key).spill = session.spill ∧
          (session.saveResident cfg s live key).load = session.load := by
      grind [SessionState.saveResident]
    exact ⟨(hsave _ _).1, (hsave _ _).2, fun h => (by cases h)⟩

variable {req : Req} {limit : Option Nat}

/-- The lookup of a health check changes nothing but the record it is given. -/
lemma stepRequest_health (hreq : req.isHealthCheck = true)
    (h : j.stepRequest cfg req limit = some j') : j.turn = none ∧
      j' = { j with
        cache := (arrive j.cache req).1
        turn := some ⟨(arrive j.cache req).2, .ready⟩ } := by
  obtain ⟨hturn, -, c, req', res, hmatch, rfl⟩ := stepRequest_some h
  have htry : (arrive j.cache req).1.tryHit cfg
      (keyOf (arrive j.cache req).2 limit) (arrive j.cache req).2 =
      .ok ((arrive j.cache req).1, (arrive j.cache req).2, none) := by
    rw [tryHit, if_pos (show (arrive j.cache req).2.isHealthCheck = true from hreq)]
  cases (matchPrefix_of_tryHit htry).symm.trans hmatch
  exact ⟨hturn, rfl⟩

/-- A prefill from `0` clears the store. -/
lemma stepExtend_fresh {t : Turn} (h : j.stepExtend cfg fwd t n = some j')
    (hpre : t.req.prefixIndices = []) : 0 < n ∧ n ≤ t.req.originInputIds.length ∧
      (∃ c' session, j.cache.growRow t.req.kv n n = some c' ∧ j'.cache = { c' with session } ∧
        Served j.cache.session session) ∧
      (∃ rings, j'.store = Store.empty.backupTip rings n true) ∧
      j'.live = fwd j.live 0 (t.req.originInputIds.take n) ∧
      j'.turn = some ⟨{ t.req with extendEnd := some n }, .extended⟩ := by
  simp only [stepExtend] at h
  split at h
  · cases h
  rename_i hguard
  rw [hpre] at hguard
  simp only [not_or, not_le, not_lt, length_nil] at hguard
  split at h
  · cases h
  rename_i c' hgrow
  have hsess : c'.session = j.cache.session := (SamePin.growRow hgrow).session
  rw [csa2PrepareExtend, hsess, hpre] at h
  replace h := some_inj.1 h
  subst h
  refine ⟨hguard.2.1, hguard.2.2, ⟨c', _, hgrow, rfl, ?_⟩, ⟨_, rfl⟩, rfl, by rw [← hpre]⟩
  exact served_takeSpill cfg j.cache.session j.store j.live

/-- A complete health check (its lookup, the slots, the prefill, the stop and the finish) leaves
what `AfterCheck` says. -/
lemma afterCheck {sampled output : List Token} {finishedLen : Option Nat}
    (hreq : req.isHealthCheck = true)
    (hrun : runList (step cfg fwd) j (healthCheck req limit sampled output finishedLen) =
      some j') : AfterCheck fwd req.originInputIds sampled j j' := by
  simp only [healthCheck, runList, bind_eq_some_iff, some_inj] at hrun
  obtain ⟨j1, h1, j2, h2, j3, h3, j4, h4, rfl⟩ := hrun
  obtain ⟨hidle, rfl⟩ := stepRequest_health hreq h1
  obtain ⟨hpos, -, ⟨c2, session, hgrow, hc2, hserved⟩, hstore, hlive, hturn⟩ :=
    stepExtend_fresh h2 rfl
  have hfresh : (arrive j.cache req).1.heap j.cache.nextKv = {} := heap_setKv_self _ _ _
  obtain ⟨idx, pool, alloc, locs, hfree, hprows, hwidth, hn, hext, rfl⟩ :=
    growRow_fresh hfresh hgrow
  simp only [step, hturn, bind_some] at h3
  obtain ⟨-, c3, req3, hcall, rfl⟩ := stepUnfinished_some h3
  rw [hc2] at hcall
  have hne : req.originInputIds ≠ [] := ne_nil_of_length_pos hpos
  obtain ⟨rfl, hsame, hkv, -⟩ := cacheUnfinishedReq_spec hcall hne rfl
  obtain ⟨-, c4, req4, hrel, rfl⟩ := stepFinish_some h4
  obtain ⟨hrow, hpool, hother, -, hpin'⟩ := releaseKvCache_health
    (by rw [Req.isHealthCheck, hsame.rid]; exact hreq)
    (show _ = filledKv idx req.originInputIds.length by rw [hkv]; exact heap_setKv_self _ _ _)
    hrel
  refine ⟨hidle, rfl, hstore, ?_, hpos, hn, hpin'.slot, hpin'.lastIds, hpin'.lastExtraKey,
    hpin'.lastCacheSalt, ?_, ?_, hpin'.width.trans hwidth, ?_, fun hps => ?_, fun a ha => ?_,
    fun i hi => ?_⟩
  · refine hlive.trans ?_
    show fwd j.live 0 (req.originInputIds.take _) = _
    rw [take_length]
  · rw [hpin'.session]
    exact hserved
  · exact hpin'.cuts
  · exact (PageBound.freeKvRow _ _ _ _ _ hrow).1.trans (pageSize_allocExtend hext)
  · exact length_allFree_check hps (show _ ≤ pool.maxContextLen from hwidth ▸ hn) hext hrow
  · rw [hother a (by rw [hkv]; exact ne_of_lt ha)]
    exact (heap_setKv_of_ne _ _ (ne_of_lt ha)).trans
      (heap_setKv_of_ne _ _ (ne_of_lt ha))
  · rw [hpool]
    have hne : i ≠ idx := by
      rintro rfl
      exact hi (show i ∈ (arrive j.cache req).1.pool.freeSlots by rw [hfree]; simp)
    funext pos
    exact (if_neg (fun h => hne h.1)).trans (congrFun (congrFun hprows i) pos)

end
end Sglang.Sticky
