import Sglang.Lib.Ledger
import Sglang.Lib.Runs
import Sglang.Sticky.Cache
import Sglang.Sticky.RowSlots

/-!
# The accounts of the cache

Which pages and rows belong to whom.  `Accounts c pages` says that the pages on the free list and
those of the records make up `pages`, that no two records share a row, and that every row is as its
record says.  Each operation of the cache on one record keeps the accounts; the lemmas here are the
only place where the free list, the rows and the records are looked at together.

* `Accounts.update` is the rule for all of them: one record changes, and what it gains or gives back
  is what the free list loses or gains.
* `Accounts.freeRow`, `truncate`, `dropRow`, `releaseRow`: what gives pages back.
* `Accounts.grow`, `allocSlot`, `ensureSlot`: what takes them.
-/

namespace Sglang.Sticky
open Lib List Option Cache ReqToTokenPool Except

variable {Key Rows Ring : Type}

/-- A record that is as the pools have it.  Over a chunk cache nothing is protected, and without a
window pool nothing is evicted. -/
structure RecordOk (pool : ReqToTokenPool) (ps : Nat) (kv : ReqKvInfo) : Prop where
  evicted : kv.swaEvictedSeqlen = 0
  unprotected : kv.cacheProtectedLen = 0
  committed : kv.reqPoolIdx ≠ none → kv.kvCommittedLen ≤ kv.kvAllocatedLen
  width : kv.reqPoolIdx ≠ none → kv.kvAllocatedLen ≤ pool.maxContextLen
  aligned : ∀ idx, kv.reqPoolIdx = some idx → Aligned pool ps idx kv.kvAllocatedLen

/-- Every row is free or registered in one record. -/
structure RowsOk (c : Cache Key Rows Ring) : Prop where
  inj : ∀ a b idx, (c.heap a).reqPoolIdx = some idx → (c.heap b).reqPoolIdx = some idx → a = b
  used : ∀ a idx, (c.heap a).reqPoolIdx = some idx → idx ∉ c.pool.freeSlots
  nodup : c.pool.freeSlots.Nodup

/-- The pages of the record at an address. -/
def Cache.pagesAt (c : Cache Key Rows Ring) (a : Nat) : List Nat :=
  pagesOf c.pool c.pageSize (c.heap a)

/-- Every page that is free or held. -/
def Cache.book (c : Cache Key Rows Ring) : List Nat :=
  ledger c.alloc.allFree (range c.nextKv) c.pagesAt

/-- **The accounts balance**: the free pages and those of the records are the given ones. -/
structure Accounts (c : Cache Key Rows Ring) (pages : List Nat) : Prop where
  page_pos : 0 < c.pageSize
  record : ∀ a, RecordOk c.pool c.pageSize (c.heap a)
  fresh : ∀ a, (c.heap a).reqPoolIdx ≠ none → a < c.nextKv
  rows : RowsOk c
  book : c.book.Perm pages

variable {c c' : Cache Key Rows Ring} {pages : List Nat}

/-! ## Rows -/

lemma RowsOk.same (h : RowsOk c) (hfree : c'.pool.freeSlots = c.pool.freeSlots)
    (hidx : ∀ b, (c'.heap b).reqPoolIdx = (c.heap b).reqPoolIdx) : RowsOk c' := by
  refine ⟨fun a b idx ha hb => ?_, fun a idx ha => ?_, hfree ▸ h.nodup⟩
  · grind [h.inj]
  · grind [h.used]

variable {a idx : Nat}

lemma RowsOk.drop (h : RowsOk c) (ha : (c.heap a).reqPoolIdx = some idx)
    (hfree : c'.pool.freeSlots = c.pool.freeSlots ++ [idx])
    (hidx : ∀ b ≠ a, (c'.heap b).reqPoolIdx = (c.heap b).reqPoolIdx)
    (hnone : (c'.heap a).reqPoolIdx = none) : RowsOk c' := by
  have hkeep : ∀ {b i}, (c'.heap b).reqPoolIdx = some i → (c.heap b).reqPoolIdx = some i ∧ b ≠ a := by
    grind
  refine ⟨fun x y i hx hy => h.inj x y i (hkeep hx).1 (hkeep hy).1, fun x i hx => ?_, ?_⟩
  · grind [h.used, h.inj]
  · grind [h.nodup, h.used]

lemma RowsOk.take (h : RowsOk c)
    (hfree : c.pool.freeSlots = c'.pool.freeSlots ++ [idx])
    (hidx : ∀ b ≠ a, (c'.heap b).reqPoolIdx = (c.heap b).reqPoolIdx)
    (hsome : (c'.heap a).reqPoolIdx = some idx) : RowsOk c' := by
  have hnd := h.nodup
  rw [hfree, nodup_append] at hnd
  have hnot : ∀ b, (c.heap b).reqPoolIdx ≠ some idx := fun b hb =>
    h.used b idx hb (by rw [hfree]; simp)
  have hcase : ∀ {b i}, (c'.heap b).reqPoolIdx = some i →
      (b = a ∧ i = idx) ∨ (b ≠ a ∧ (c.heap b).reqPoolIdx = some i) := by
    grind
  refine ⟨fun x y i hx hy => ?_, fun x i hx => ?_, hnd.1⟩
  · grind [h.inj]
  · rcases hcase hx with ⟨_, rfl⟩ | ⟨_, hx⟩
    · exact fun hm => hnd.2.2 i hm i (by simp) rfl
    · exact fun hm => h.used x i hx (by rw [hfree]; exact mem_append_left _ hm)

variable {pool p : ReqToTokenPool}

lemma allocRows_one {rest : List Nat} (h : p.allocRows 1 = (some (idx :: rest), pool)) :
    p.freeSlots = pool.freeSlots ++ [idx] ∧ pool.rows = p.rows ∧
      pool.maxContextLen = p.maxContextLen := by
  rw [allocRows] at h
  split at h
  · cases congrArg Prod.fst h
  rw [Prod.mk.injEq, some_inj] at h
  obtain ⟨hidx, rfl⟩ := h
  refine ⟨?_, rfl, rfl⟩
  have hone : (p.freeSlots.drop (p.freeSlots.length - 1)).length = 1 := by
    rw [length_drop]
    omega
  rw [hidx, length_cons] at hone
  have hrest : rest = [] := length_eq_zero_iff.1 (by omega)
  rw [hrest] at hidx
  rw [← hidx, take_append_drop]

lemma allocRows_one_none {res : Option (List Nat)} (h : p.allocRows 1 = (res, pool))
    (hnil : ∀ idx rest, res ≠ some (idx :: rest)) : p.freeSlots = [] ∧ pool = p := by
  rw [allocRows] at h
  split at h
  · grind
  have hone : (p.freeSlots.drop (p.freeSlots.length - 1)).length = 1 := by
    rw [length_drop]
    omega
  cases hl : p.freeSlots.drop (p.freeSlots.length - 1) with
  | nil => rw [hl] at hone; cases hone
  | cons idx rest =>
    grind

/-! ## Changing one record -/

/-- **The update rule of the accounts**: one record changes, and what it gains or gives back is what
the free list loses or gets. -/
theorem Accounts.update (h : Accounts c pages) (ha : a < c.nextKv) (hnext : c'.nextKv = c.nextKv)
    (hps : c'.pageSize = c.pageSize) (hwidth : c'.pool.maxContextLen = c.pool.maxContextLen)
    (hheap : ∀ b ≠ a, c'.heap b = c.heap b)
    (hother : ∀ b ≠ a, ∀ idx, (c.heap b).reqPoolIdx = some idx →
      ∀ p, c'.pool.rows idx p = c.pool.rows idx p)
    (hrec : RecordOk c'.pool c'.pageSize (c'.heap a))
    (hfree : (c'.alloc.allFree ++ c'.pagesAt a).Perm (c.alloc.allFree ++ c.pagesAt a))
    (hrows : RowsOk c') : Accounts c' pages := by
  have hpages : ∀ b ≠ a, c'.pagesAt b = c.pagesAt b := fun b hb => by
    grind [pagesAt, pagesOf_congr]
  refine ⟨hps ▸ h.page_pos, fun b => ?_, fun b hb => ?_, hrows, ?_⟩
  · by_cases hba : b = a
    · exact hba ▸ hrec
    · rw [hheap b hba, hps]
      obtain ⟨h1, h2, h3, h4, h5⟩ := h.record b
      refine ⟨h1, h2, h3, hwidth ▸ h4, fun idx hidx p hp => ?_⟩
      rw [hother b hba idx hidx, h5 idx hidx p hp, pageAt, pageAt, hother b hba idx hidx]
  · rw [hnext]
    by_cases hba : b = a
    · exact hba ▸ ha
    · rw [hheap b hba] at hb
      exact h.fresh b hb
  · refine List.Perm.trans ?_ h.book
    rw [Cache.book, Cache.book, hnext]
    exact ledger_update nodup_range (mem_range.2 ha) (fun b _ hb => hpages b hb) hfree

variable {alloc : Allocator} {kv : ReqKvInfo}

/-- The same when the pool of rows is not touched and the record keeps its row. -/
lemma Accounts.update_record (h : Accounts c pages) (ha : a < c.nextKv)
    (hps : alloc.pageSize = c.pageSize) (hidx : kv.reqPoolIdx = (c.heap a).reqPoolIdx)
    (hrec : RecordOk c.pool c.pageSize kv)
    (hfree : (alloc.allFree ++ pagesOf c.pool c.pageSize kv).Perm
      (c.alloc.allFree ++ c.pagesAt a)) : Accounts ({ c with alloc }.setKv a kv) pages := by
  have hheap := heap_setKv_self { c with alloc } a kv
  refine h.update ha rfl hps rfl (fun b hb => if_neg hb) (fun _ _ _ _ _ => rfl) ?_ ?_ ?_
  · rw [hheap]
    show RecordOk c.pool alloc.pageSize kv
    rwa [hps]
  · rw [pagesAt, hheap]
    show (alloc.allFree ++ pagesOf c.pool alloc.pageSize kv).Perm _
    rwa [hps]
  · refine h.rows.same rfl fun b => ?_
    by_cases hb : b = a
    · rw [hb, hheap, hidx]
    · rw [heap_setKv_of_ne _ _ hb]

lemma Accounts.setKv (h : Accounts c pages) (ha : a < c.nextKv)
    (hidx : kv.reqPoolIdx = (c.heap a).reqPoolIdx)
    (hlen : kv.kvAllocatedLen = (c.heap a).kvAllocatedLen) (hev : kv.swaEvictedSeqlen = 0)
    (hun : kv.cacheProtectedLen = 0) (hcom : kv.kvCommittedLen ≤ kv.kvAllocatedLen) :
    Accounts (c.setKv a kv) pages := by
  have hpages : pagesOf c.pool c.pageSize kv = c.pagesAt a := by
    rw [pagesAt, pagesOf, pagesOf, hidx, hlen]
  have hacc := fun hrec => h.update_record ha (Eq.refl c.alloc.pageSize) hidx hrec (by rw [hpages])
  refine hacc ?_
  obtain ⟨-, -, -, h4, h5⟩ := h.record a
  exact ⟨hev, hun, fun _ => hcom, fun hne => hlen ▸ h4 (hidx ▸ hne),
    fun idx hi => hlen ▸ h5 idx (hidx ▸ hi)⟩

lemma Accounts.newRecord (h : Accounts c pages) :
    Accounts { c.setKv c.nextKv {} with nextKv := c.nextKv + 1 } pages := by
  have hnone : (c.heap c.nextKv).reqPoolIdx = none := by
    by_contra hne
    exact absurd (h.fresh _ hne) (lt_irrefl _)
  have hidx : ∀ b, ((c.setKv c.nextKv {}).heap b).reqPoolIdx = (c.heap b).reqPoolIdx := by
    grind [heap_setKv_self, heap_setKv_of_ne]
  refine ⟨h.page_pos, fun b => ?_, fun b hb => ?_, h.rows.same rfl hidx, ?_⟩
  · by_cases hb : b = c.nextKv
    · grind [RecordOk, heap_setKv_self]
    · show RecordOk c.pool c.pageSize ((c.setKv c.nextKv {}).heap b)
      rw [heap_setKv_of_ne _ _ hb]
      exact h.record b
  · have hb : ((c.setKv c.nextKv {}).heap b).reqPoolIdx ≠ none := hb
    rw [hidx] at hb
    exact Nat.lt_succ_of_lt (h.fresh b hb)
  · refine List.Perm.trans ?_ h.book
    show (ledger c.alloc.allFree (range (c.nextKv + 1)) _).Perm _
    rw [Cache.book, ledger, ledger, range_succ, flatMap_append]
    have hlast : ({ c.setKv c.nextKv {} with nextKv := c.nextKv + 1 } :
        Cache Key Rows Ring).pagesAt c.nextKv = [] :=
      pagesOf_none (by rw [hidx, hnone])
    rw [flatMap_singleton, hlast, append_nil, flatMap_congr_of_mem fun b hb => ?_]
    have hne : b ≠ c.nextKv := ne_of_lt (mem_range.1 hb)
    show pagesOf c.pool c.pageSize ((c.setKv c.nextKv {}).heap b) = _
    rw [heap_setKv_of_ne _ _ hne, pagesAt]

/-! ## Cutting a row -/

lemma nextPage_spec (hps : 0 < c.pageSize) (n : Nat) :
    c.nextPage n % c.pageSize = 0 ∧ c.nextPage n / c.pageSize = ceilDiv n c.pageSize := by
  grind [nextPage, ceilAlign_mod, ceilAlign_div, ceilDiv]

variable {n : Nat}

lemma range'_split {k : Nat} (h : k ≤ n) (f : Nat → Nat) :
    (range n).map f = (range k).map f ++ (range' k (n - k)).map f := by
  have happ := range'_append_1 (s := 0) (m := k) (n := n - k)
  rw [zero_add, Nat.add_sub_cancel' h] at happ
  rw [← map_append, range_eq_range', range_eq_range', happ]

variable {start : Nat}

/-- **Freeing a part of a row** adds its pages to the free list and changes nothing else. -/
theorem Accounts.freeRow (h : Accounts c pages) {stop : Nat}
    (hidx : (c.heap a).reqPoolIdx = some idx) (hstart : start % c.pageSize = 0)
    (hstop : stop ≤ (c.heap a).kvAllocatedLen) (hok : c.freeRow a [(start, stop)] = .ok c') :
    ∃ alloc, c' = { c with alloc } ∧ alloc.pageSize = c.pageSize ∧
      alloc.allFree.Perm (c.alloc.allFree ++
        (range' (start / c.pageSize) (ceilDiv stop c.pageSize - start / c.pageSize)).map
          (pageAt c.pool c.pageSize idx)) := by
  have hrec := h.record a
  have hwidth := hrec.width (by rw [hidx]; simp)
  obtain ⟨alloc, hfree, hps, hperm⟩ := freeKvRow_spec h.page_pos hidx hrec.evicted
    hstart (le_trans hstop hwidth)
  rw [Cache.freeRow, hfree, bind_ok] at hok
  obtain ⟨alloc', hal, hok⟩ := hok
  rw [pure_ok] at hok
  cases hal
  exact ⟨alloc, hok.symm, hps, hperm⟩

variable {target : Nat}

/-- What `_free_kv_aligned` gives back: the pages past those of the first `target` positions. -/
lemma Accounts.freeKvAligned (h : Accounts c pages) (hidx : (c.heap a).reqPoolIdx = some idx)
    (hok : c.freeKvAligned a target (c.heap a).kvAllocatedLen = .ok c') :
    ∃ alloc, c' = { c with alloc } ∧ alloc.pageSize = c.pageSize ∧ (alloc.allFree ++
        (c.pagesAt a).take (ceilDiv (min (c.heap a).kvAllocatedLen target) c.pageSize)).Perm
        (c.alloc.allFree ++ c.pagesAt a) := by
  have hpages : c.pagesAt a = (range (ceilDiv (c.heap a).kvAllocatedLen c.pageSize)).map
      (pageAt c.pool c.pageSize idx) := by
    rw [pagesAt, pagesOf, hidx]
  rw [Cache.freeKvAligned] at hok
  split at hok
  · rename_i hle
    rw [ok.injEq] at hok
    subst hok
    refine ⟨c.alloc, rfl, rfl, ?_⟩
    rw [min_eq_left hle, take_of_length_le (by rw [hpages]; simp)]
  · rename_i hlt
    obtain ⟨hmod, hdiv⟩ := nextPage_spec h.page_pos target
    obtain ⟨alloc, hc, hps, hperm⟩ := h.freeRow hidx hmod (le_refl _) hok
    refine ⟨alloc, hc, hps, ?_⟩
    rw [hdiv] at hperm
    have hle : ceilDiv target c.pageSize ≤ ceilDiv (c.heap a).kvAllocatedLen c.pageSize :=
      ceilDiv_mono h.page_pos (by omega)
    rw [min_eq_right (by omega), hpages, ← map_take, take_range, min_eq_left hle]
    refine (hperm.append_right _).trans ?_
    rw [append_assoc, range'_split hle]
    exact perm_append_comm.append_left _

variable {c₁ : Cache Key Rows Ring}

/-- **Cutting a row** to `target` positions keeps the accounts. -/
theorem Accounts.truncate (h : Accounts c pages) (hidx : (c.heap a).reqPoolIdx = some idx)
    (hok : c.freeKvAligned a target (c.heap a).kvAllocatedLen = .ok c₁)
    (hk : kv.reqPoolIdx = some idx)
    (hlen : kv.kvAllocatedLen = min (c.heap a).kvAllocatedLen target)
    (hev : kv.swaEvictedSeqlen = 0) (hun : kv.cacheProtectedLen = 0)
    (hcom : kv.kvCommittedLen ≤ kv.kvAllocatedLen) : Accounts (c₁.setKv a kv) pages := by
  obtain ⟨alloc, rfl, hps, hperm⟩ := h.freeKvAligned hidx hok
  have hne : (c.heap a).reqPoolIdx ≠ none := by rw [hidx]; simp
  have hle : kv.kvAllocatedLen ≤ (c.heap a).kvAllocatedLen := by omega
  refine h.update_record (h.fresh a hne) hps (hk.trans hidx.symm) ?_ ?_
  · obtain ⟨-, -, -, h4, h5⟩ := h.record a
    refine ⟨hev, hun, fun _ => hcom, fun _ => le_trans hle (h4 hne), fun i hi => ?_⟩
    rw [hk, some_inj] at hi
    subst hi
    exact (h5 idx hidx).mono hle
  · rw [pagesOf_truncate c.pool h.page_pos (hk.trans hidx.symm) hlen (min_le_left _ _)]
    exact hperm

lemma Accounts.congr (h : Accounts c pages) (hpool : c'.pool = c.pool) (halloc : c'.alloc = c.alloc)
    (hheap : c'.heap = c.heap) (hnext : c'.nextKv = c.nextKv) : Accounts c' pages := by
  obtain ⟨pool, alloc, heap, nextKv, slot, lastIds, extra, salt, cuts, session⟩ := c
  obtain ⟨pool', alloc', heap', nextKv', slot', lastIds', extra', salt', cuts', session'⟩ := c'
  subst hpool halloc hheap hnext
  exact ⟨h.page_pos, h.record, h.fresh, ⟨h.rows.inj, h.rows.used, h.rows.nodup⟩, h.book⟩

/-- Only the record at `a` changed; nobody was given a row or an address. -/
structure OnlyAt (a : Nat) (c c' : Cache Key Rows Ring) : Prop where
  heap : ∀ b ≠ a, c'.heap b = c.heap b
  nextKv : c'.nextKv = c.nextKv
  width : c'.pool.maxContextLen = c.pool.maxContextLen
  pageSize : c'.pageSize = c.pageSize

lemma OnlyAt.setKv (a : Nat) (c : Cache Key Rows Ring) (kv : ReqKvInfo) :
    OnlyAt a c (c.setKv a kv) :=
  ⟨fun _ hb => heap_setKv_of_ne _ _ hb, rfl, rfl, rfl⟩

/-- `_free_tail` within what is allocated. -/
lemma Accounts.freeTail (h : Accounts c pages) (hidx : (c.heap a).reqPoolIdx = some idx)
    (hn : n ≤ (c.heap a).kvAllocatedLen) (hok : c.freeTail a n = .ok c') :
    Accounts c' pages ∧ OnlyAt a c c' ∧ c'.pool = c.pool ∧
      (c'.heap a).reqPoolIdx = some idx ∧ (c'.heap a).kvAllocatedLen = n := by
  rw [Cache.freeTail, bind_ok] at hok
  obtain ⟨c₁, h1, hok⟩ := hok
  rw [pure_ok] at hok
  obtain ⟨alloc, rfl, hps, -⟩ := h.freeKvAligned hidx h1
  subst hok
  have hrec := h.record a
  refine ⟨h.truncate hidx h1 hidx (min_eq_right hn).symm ?_ hrec.unprotected
    (min_le_right _ _), ⟨fun b hb => heap_setKv_of_ne _ _ hb, rfl, rfl, hps⟩, rfl, ?_, ?_⟩
  · simp [hrec.evicted]
  · simp_all
  · rw [heap_setKv_self]

variable {req : Req}

/-- `_trim_overshoot`. -/
lemma Accounts.trimOvershoot (h : Accounts c pages) {req' : Req} {finishedLen : Nat}
    (hidx : (c.heap req.kv).reqPoolIdx = some idx)
    (hok : c.trimOvershoot req finishedLen = .ok (c', req')) :
    Accounts c' pages ∧ OnlyAt req.kv c c' ∧ (c'.heap req.kv).reqPoolIdx = some idx ∧
      (c'.heap req.kv).kvAllocatedLen =
        min (c.heap req.kv).kvAllocatedLen (req.originInputIds.length + finishedLen) := by
  have hrec := h.record req.kv
  have htarget : c.trimTarget req finishedLen = req.originInputIds.length + finishedLen := by
    simp [trimTarget, hrec.evicted]
  rw [Cache.trimOvershoot, bind_ok] at hok
  obtain ⟨c₁, h1, hok⟩ := hok
  rw [htarget] at h1 hok
  obtain ⟨alloc, rfl, hps, -⟩ := h.freeKvAligned hidx h1
  obtain ⟨rfl, -⟩ := hok
  refine ⟨h.truncate hidx h1 hidx rfl ?_ hrec.unprotected ?_,
    ⟨fun b hb => heap_setKv_of_ne _ _ hb, rfl, rfl, hps⟩, ?_, ?_⟩
  · simp [hrec.evicted]
  · have := hrec.committed (by rw [hidx]; simp)
    show min (c.heap req.kv).kvCommittedLen _ ≤ min (c.heap req.kv).kvAllocatedLen _
    omega
  · rw [heap_setKv_self]
    exact hidx
  · rw [heap_setKv_self]

/-! ## Giving a row back -/

/-- **A record gives up its row**, once its pages are on the free list. -/
theorem Accounts.dropRow (h : Accounts c pages) (hidx : (c.heap a).reqPoolIdx = some idx)
    (hps : alloc.pageSize = c.pageSize)
    (hperm : alloc.allFree.Perm (c.alloc.allFree ++ c.pagesAt a)) (hk : kv.reqPoolIdx = none)
    (hev : kv.swaEvictedSeqlen = 0) (hun : kv.cacheProtectedLen = 0) :
    Accounts ({ c with alloc, pool := c.pool.freeRows [idx] }.setKv a kv) pages := by
  have hne : (c.heap a).reqPoolIdx ≠ none := by rw [hidx]; simp
  have hheap := heap_setKv_self { c with alloc, pool := c.pool.freeRows [idx] } a kv
  refine h.update (h.fresh a hne) rfl hps rfl (fun b hb => heap_setKv_of_ne _ _ hb)
    (fun _ _ _ _ _ => rfl) ?_ ?_ ?_
  · rw [hheap]
    exact ⟨hev, hun, fun hne => absurd hk hne, fun hne => absurd hk hne,
      fun i hi => (by cases hk.symm.trans hi)⟩
  · rw [pagesAt, hheap, pagesOf_none hk, append_nil]
    exact hperm
  · refine h.rows.drop hidx rfl (fun b hb => ?_) ?_
    · rw [heap_setKv_of_ne _ _ hb]
    · rw [hheap, hk]

/-- `_drop_slot` and `_release_slot_kv` on the record of the slot. -/
lemma Accounts.releaseRecord (h : Accounts c pages) {ref : Option Nat}
    (hok : c.releaseRecord ref = .ok c') :
    Accounts c' pages ∧ (∀ a, some a ≠ ref → c'.heap a = c.heap a) ∧
      (∀ a, some a = ref → (c'.heap a).reqPoolIdx = none) ∧ c'.nextKv = c.nextKv ∧
      c'.pool.maxContextLen = c.pool.maxContextLen ∧ c'.pageSize = c.pageSize := by
  cases ref with
  | none =>
    simp_all [Cache.releaseRecord]
  | some ref =>
    rw [Cache.releaseRecord] at hok
    split at hok
    · rename_i hholds
      obtain ⟨idx, hidx⟩ := isSome_iff_exists.1 hholds
      rw [bind_ok] at hok
      obtain ⟨c₁, h1, hok⟩ := hok
      obtain ⟨alloc, rfl, hps, hperm⟩ := h.freeRow hidx (Nat.zero_mod _) (le_refl _) h1
      rw [freePoolRow, show ({ c with alloc } : Cache Key Rows Ring).heap ref = c.heap ref
        from rfl, hidx] at hok
      rw [ok.injEq] at hok
      subst hok
      have hrec := h.record ref
      refine ⟨h.dropRow hidx hps ?_ rfl hrec.evicted hrec.unprotected, fun a ha => ?_,
        fun a ha => ?_, rfl, rfl, hps⟩
      · simp_all [pagesAt, pagesOf, ← range_eq_range']
      · exact heap_setKv_of_ne _ _ fun heq => ha (by rw [heq])
      · simp_all
    · simp_all [ReqKvInfo.holdsKv]

/-- **What `release_kv_cache` gives back** when the cache did not take the record over: first what
the inner cache owns, then the rest from the next page on, then the row. -/
theorem Accounts.releaseRow (h : Accounts c pages) {c2 c3 : Cache Key Rows Ring}
    (hidx : (c.heap req.kv).reqPoolIdx = some idx)
    (h1 : c.innerFinished req (c.heap req.kv).kvCommittedLen = .ok c₁)
    (h2 : c₁.freePastOwned req.kv (c.heap req.kv).kvCommittedLen = .ok c2)
    (h3 : c2.freePoolRow req.kv = .ok c3) :
    Accounts (c3.setKv req.kv { c3.heap req.kv with kvAllocatedLen := 0, swaEvictedSeqlen := 0 })
      pages ∧ OnlyAt req.kv c c3 ∧ (c3.heap req.kv).reqPoolIdx = none := by
  have hrec := h.record req.kv
  have hne : (c.heap req.kv).reqPoolIdx ≠ none := by rw [hidx]; simp
  have hcom := hrec.committed hne
  rw [innerFinished, hrec.unprotected] at h1
  obtain ⟨alloc, rfl, hps, hperm⟩ := h.freeRow hidx (Nat.zero_mod _) hcom h1
  rw [Nat.zero_div, Nat.sub_zero, ← range_eq_range'] at hperm
  have hcd := ceilDiv_mono h.page_pos hcom
  -- The second free starts on the page after the last one of the first.
  have hrest : ∃ alloc', c2 = { c with alloc := alloc' } ∧ alloc'.pageSize = c.pageSize ∧
      alloc'.allFree.Perm (c.alloc.allFree ++ c.pagesAt req.kv) := by
    have hpages : c.pagesAt req.kv = (range (ceilDiv (c.heap req.kv).kvAllocatedLen c.pageSize)).map
          (pageAt c.pool c.pageSize idx) := by
      rw [pagesAt, pagesOf, hidx]
    obtain ⟨hmod, hdiv⟩ := nextPage_spec h.page_pos (c.heap req.kv).kvCommittedLen
    have hnext : ({ c with alloc } : Cache Key Rows Ring).nextPage
        (c.heap req.kv).kvCommittedLen = c.nextPage (c.heap req.kv).kvCommittedLen := by
      rw [nextPage, nextPage, show ({ c with alloc } : Cache Key Rows Ring).pageSize =
        c.pageSize from hps]
    rw [freePastOwned, hnext] at h2
    split at h2
    · rename_i hlt
      have hfree := freeKvRow_spec (a := alloc) (hps ▸ h.page_pos) hidx hrec.evicted
        (hps ▸ hmod) (hrec.width hne)
      obtain ⟨alloc', hfree, hps', hperm'⟩ := hfree
      rw [Cache.freeRow, bind_ok] at h2
      obtain ⟨alloc'', hal, h2⟩ := h2
      rw [pure_ok] at h2
      rw [show freeKvRow c.pool alloc (c.heap req.kv) [_] = .ok alloc' from hfree] at hal
      cases hal
      refine ⟨alloc', h2.symm, hps'.trans hps, ?_⟩
      rw [hps, hdiv] at hperm'
      refine hperm'.trans ((hperm.append_right _).trans ?_)
      rw [append_assoc, hpages, range'_split hcd]
    · rename_i hge
      rw [ok.injEq] at h2
      refine ⟨alloc, h2.symm, hps, ?_⟩
      have heq : ceilDiv (c.heap req.kv).kvAllocatedLen c.pageSize =
          ceilDiv (c.heap req.kv).kvCommittedLen c.pageSize := by
        refine le_antisymm ?_ hcd
        rw [ceilDiv_le_iff h.page_pos, ← hdiv, Nat.mul_div_cancel' (Nat.dvd_of_mod_eq_zero hmod)]
        exact Nat.le_of_not_lt hge
      rw [hpages, heq]
      exact hperm
  obtain ⟨alloc', rfl, hps', hperm'⟩ := hrest
  rw [freePoolRow, show ({ c with alloc := alloc' } : Cache Key Rows Ring).heap req.kv =
    c.heap req.kv from rfl, hidx] at h3
  rw [ok.injEq] at h3
  subst h3
  refine ⟨?_, ⟨fun b hb => heap_setKv_of_ne _ _ hb, rfl, rfl, hps'⟩, ?_⟩
  · have hset : ∀ kv kv',
        (({ c with alloc := alloc', pool := c.pool.freeRows [idx] }.setKv req.kv kv).setKv req.kv
          kv') = { c with alloc := alloc', pool := c.pool.freeRows [idx] }.setKv req.kv kv' := by
      intro kv kv'
      simp only [Cache.setKv, Cache.mk.injEq, true_and, and_true]
      funext r
      split <;> rfl
    rw [heap_setKv_self, hset]
    exact h.dropRow hidx hps' hperm' rfl rfl hrec.unprotected
  · rw [heap_setKv_self]

/-! ## Growing a row -/

lemma RowsOk.ne_row {b idx' : Nat} (h : RowsOk c) (hb : b ≠ a)
    (hrow : (c.heap a).reqPoolIdx = some idx ∨ idx ∈ c.pool.freeSlots)
    (hidx : (c.heap b).reqPoolIdx = some idx') : idx' ≠ idx := by
  grind [h.inj, h.used]

/-- The row a record grows in, from `start` on: its own, or a free one. -/
structure RowFor (c : Cache Key Rows Ring) (a idx : Nat) (pool : ReqToTokenPool) (start : Nat) :
    Prop where
  rows : pool.rows = c.pool.rows
  width : pool.maxContextLen = c.pool.maxContextLen
  own : ((c.heap a).reqPoolIdx = some idx ∧ start = (c.heap a).kvAllocatedLen ∧
      pool.freeSlots = c.pool.freeSlots) ∨
    ((c.heap a).reqPoolIdx = none ∧ start = 0 ∧ c.pool.freeSlots = pool.freeSlots ++ [idx])

lemma rowFor_of_rowToGrow (h : c.rowToGrow a = some (idx, pool, start)) :
    RowFor c a idx pool start := by
  rw [rowToGrow] at h
  split at h
  · rename_i idx' hidx
    obtain ⟨rfl, rfl, rfl⟩ := h
    exact ⟨rfl, rfl, .inl ⟨hidx, rfl, rfl⟩⟩
  · rename_i hidx
    split at h
    · rename_i idx' rest pool' hrow
      obtain ⟨rfl, rfl, rfl⟩ := h
      obtain ⟨hfree, hrows, hw⟩ := allocRows_one hrow
      exact ⟨hrows, hw, .inr ⟨hidx, rfl, hfree⟩⟩
    · cases h

section
variable (h : Accounts c pages)

include h

lemma RowFor.pagesAt (hrow : RowFor c a idx pool start) : c.pagesAt a =
      (range (ceilDiv start c.pageSize)).map (pageAt pool c.pageSize idx) := by
  rw [Cache.pagesAt, pagesOf]
  rcases hrow.own with ⟨hidx, rfl, -⟩ | ⟨hidx, rfl, -⟩
  · simp [hidx, pageAt, hrow.rows]
  have h0 : ceilDiv 0 c.pageSize = 0 :=
    Nat.le_zero.1 ((ceilDiv_le_iff h.page_pos).2 (Nat.zero_le _))
  rw [hidx, h0]
  rfl

/-- **A row grows**: its record may be rewritten if the pages it gained come off the free list. -/
theorem Accounts.grow {locs : List Nat} (ha : a < c.nextKv)
    (hrow : RowFor c a idx pool start) (hps : alloc.pageSize = c.pageSize)
    (hk : kv.reqPoolIdx = some idx) (hrec : RecordOk (pool.write idx start locs) c.pageSize kv)
    (hperm : (alloc.allFree ++ pagesOf (pool.write idx start locs) c.pageSize kv).Perm
      (c.alloc.allFree ++ c.pagesAt a)) :
    Accounts ({ c with alloc, pool := pool.write idx start locs }.setKv a kv) pages := by
  have hheap := heap_setKv_self { c with alloc, pool := pool.write idx start locs } a kv
  refine h.update ha rfl hps hrow.width (fun b hb => heap_setKv_of_ne _ _ hb)
    (fun b hb i hi p => ?_) ?_ ?_ ?_
  · have hni : i ≠ idx := by
      grind [h.rows.ne_row, hrow.own]
    show (pool.write idx start locs).rows i p = _
    rw [write_rows_of_ne hni, hrow.rows]
  · rw [hheap]
    show RecordOk (pool.write idx start locs) alloc.pageSize kv
    rwa [hps]
  · rw [pagesAt, hheap]
    show (alloc.allFree ++ pagesOf (pool.write idx start locs) alloc.pageSize kv).Perm _
    rwa [hps]
  · rcases hrow.own with ⟨hidx, -, hfree⟩ | ⟨-, -, hfree⟩
    · refine h.rows.same hfree fun b => ?_
      by_cases hb : b = a
      · rw [hb, hheap, hidx, hk]
      · rw [heap_setKv_of_ne _ _ hb]
    · refine h.rows.take hfree (fun b hb => ?_) (by rw [hheap, hk])
      rw [heap_setKv_of_ne _ _ hb]

/-- `alloc_for_extend` keeps the accounts. -/
lemma Accounts.growRow {seqLen committedLen : Nat} (ha : a < c.nextKv)
    (hcom : committedLen ≤ seqLen) (hok : c.growRow a seqLen committedLen = some c') :
    Accounts c' pages ∧ OnlyAt a c c' ∧ (c'.heap a).kvAllocatedLen = seqLen ∧
      (c'.heap a).reqPoolIdx ≠ none ∧
      ((c.heap a).reqPoolIdx ≠ none → (c.heap a).kvAllocatedLen ≤ seqLen) := by
  rw [Cache.growRow] at hok
  split at hok
  · cases hok
  rename_i idx pool start hrow
  have hrow := rowFor_of_rowToGrow hrow
  split at hok
  · cases hok
  rename_i hbound
  rw [not_or, not_lt, not_lt] at hbound
  split at hok
  · cases hok
  rename_i locs alloc hext
  rw [some_inj] at hok
  subst hok
  have hal : Aligned pool c.pageSize idx start := by
    rcases hrow.own with ⟨hidx, rfl, -⟩ | ⟨-, rfl, -⟩
    · intro p hp
      rw [hrow.rows, (h.record a).aligned idx hidx p hp, pageAt, pageAt, hrow.rows]
    · exact fun p hp => absurd hp (Nat.not_lt_zero p)
  obtain ⟨hps, hal', hperm⟩ := allocExtend_spec h.page_pos hbound.1 hext hal
  have hrec := h.record a
  refine ⟨h.grow ha hrow hps rfl ⟨hrec.evicted, hrec.unprotected, fun _ => hcom,
    fun _ => hbound.2, fun i hi => ?_⟩ ?_, ⟨fun b hb => heap_setKv_of_ne _ _ hb, rfl,
    hrow.width, hps⟩, ?_, ?_, fun hne => ?_⟩
  · cases hi
    exact hal'
  · rw [hrow.pagesAt h]
    exact hperm
  · rw [heap_setKv_self]
  · simp
  · grind [hrow.own]

/-- The same at page size `1`, with slots that `alloc` returned. -/
lemma Accounts.appendSlots {flat : List Nat} (kv : ReqKvInfo)
    (ha : a < c.nextKv) (hone : c.pageSize = 1) (hrow : RowFor c a idx pool start)
    (hps : alloc.pageSize = 1) (hperm : (alloc.allFree ++ flat).Perm c.alloc.allFree)
    (hk : kv.reqPoolIdx = some idx) (hlen : kv.kvAllocatedLen = start + flat.length)
    (hev : kv.swaEvictedSeqlen = 0) (hun : kv.cacheProtectedLen = 0)
    (hcom : kv.kvCommittedLen ≤ kv.kvAllocatedLen)
    (hwidth : kv.kvAllocatedLen ≤ c.pool.maxContextLen) :
    Accounts ({ c with alloc, pool := pool.write idx start flat }.setKv a kv) pages := by
  refine h.grow ha hrow (hps.trans hone.symm) hk ⟨hev, hun, fun _ => hcom, fun _ => ?_,
    fun i _ => hone ▸ aligned_one _ _ _⟩ ?_
  · exact hrow.width ▸ hwidth
  · have hstart : (range (ceilDiv start 1)).map (pageAt pool 1 idx) =
        (range start).map (pool.rows idx) := by
      simp [ceilDiv, pageAt]
    rw [hrow.pagesAt h, hone, hstart, pagesOf_one hk, hlen, write_range]
    refine (perm_append_comm.append_left _).trans ?_
    rw [← append_assoc]
    exact hperm.append_right _

/-! ## Rows for saved conversations -/

/-- Slots that were taken off the free list and not put anywhere are lost. -/
lemma Accounts.lose {lost : List Nat} (hps : alloc.pageSize = c.pageSize)
    (hrows : pool.rows = c.pool.rows) (hwidth : pool.maxContextLen = c.pool.maxContextLen)
    (hfree : pool.freeSlots = c.pool.freeSlots)
    (hperm : (alloc.allFree ++ lost).Perm c.alloc.allFree) :
    ∃ pages', (pages' ++ lost).Perm pages ∧ Accounts { c with alloc, pool } pages' := by
  obtain ⟨width, rows, slots⟩ := pool
  subst hrows hwidth hfree
  refine ⟨({ c with alloc }).book, ?_, ⟨?_, fun a => ?_, h.fresh,
    ⟨h.rows.inj, h.rows.used, h.rows.nodup⟩, List.Perm.refl _⟩⟩
  · refine List.Perm.trans ?_ h.book
    have hshare : ({ c with alloc } : Cache Key Rows Ring).pagesAt = c.pagesAt := by
      funext a
      rw [pagesAt, pagesAt]
      show pagesOf c.pool alloc.pageSize (c.heap a) = _
      rw [hps]
    rw [Cache.book, Cache.book, hshare, ledger, ledger]
    refine List.Perm.trans ?_ (hperm.append_right _)
    rw [append_assoc, append_assoc]
    exact perm_append_comm.append_left _
  · show 0 < alloc.pageSize
    rw [hps]
    exact h.page_pos
  · show RecordOk c.pool alloc.pageSize (c.heap a)
    rw [hps]
    exact h.record a

end

/-- What is left when no row could be found for a saved conversation of length `n`: everything is
as before, up to the slots lost when `n` is longer than a row. -/
structure NoRow (c c' : Cache Key Rows Ring) (pages : List Nat) (n : Nat) : Prop where
  accounts : ∃ pages' lost, (pages' ++ lost).Perm pages ∧ Accounts c' pages' ∧
    (n ≤ c.pool.maxContextLen → lost = [])
  heap : c'.heap = c.heap
  nextKv : c'.nextKv = c.nextKv
  slot : c'.slot = c.slot
  lastIds : c'.lastIds = c.lastIds
  cuts : c'.cuts = c.cuts
  width : c'.pool.maxContextLen = c.pool.maxContextLen

lemma NoRow.of_lost (h : Accounts c pages) (lost : List Nat) (hps : alloc.pageSize = c.pageSize)
    (hrows : pool.rows = c.pool.rows) (hwidth : pool.maxContextLen = c.pool.maxContextLen)
    (hfree : pool.freeSlots = c.pool.freeSlots)
    (hperm : (alloc.allFree ++ lost).Perm c.alloc.allFree)
    (hlost : n ≤ c.pool.maxContextLen → lost = []) : NoRow c { c with alloc, pool } pages n := by
  obtain ⟨pages', hp, hacc⟩ := h.lose hps hrows hwidth hfree hperm
  exact ⟨⟨pages', lost, hp, hacc, hlost⟩, rfl, rfl, rfl, rfl, rfl, hwidth⟩

/-- What is left when the slot has a row of `n` positions.  A slot that had a row keeps it. -/
structure HasRow (c c' : Cache Key Rows Ring) (pages : List Nat) (n : Nat) : Prop where
  accounts : Accounts c' pages
  slot : ∃ ref idx, c'.slot = some ref ∧ (c'.heap ref).reqPoolIdx = some idx ∧
    n ≤ (c'.heap ref).kvAllocatedLen ∧ (∀ b, b ≠ ref → c'.heap b = c.heap b) ∧
    ∀ r, c.slot = some r → (c.heap r).reqPoolIdx ≠ none → r = ref
  nextKv : c.nextKv ≤ c'.nextKv
  width : c'.pool.maxContextLen = c.pool.maxContextLen

section
variable (h : Accounts c pages)

include h

lemma NoRow.refl (n : Nat) : NoRow c c pages n :=
  ⟨⟨pages, [], by simp, h, fun _ => rfl⟩, rfl, rfl, rfl, rfl, rfl, rfl⟩

/-- **`_alloc_slot`**: a new record with a row of `n` positions, or nothing. -/
theorem Accounts.allocSlot (n : Nat)
    (hno : ∀ r, c.slot = some r → (c.heap r).reqPoolIdx = none) :
    ((c.allocSlot n).1 = false ∧ NoRow c (c.allocSlot n).2 pages n) ∨
      ((c.allocSlot n).1 = true ∧ HasRow c (c.allocSlot n).2 pages n) := by
  rw [Cache.allocSlot]
  split
  · exact .inl ⟨rfl, .refl h n⟩
  rename_i hguard
  rw [not_or, Decidable.not_not] at hguard
  split
  · rename_i idx rest pool hrow
    obtain ⟨hfree, hrows, hwidth⟩ := allocRows_one hrow
    have hback : (pool.freeRows [idx]).freeSlots = c.pool.freeSlots := hfree.symm
    obtain ⟨hps, hres⟩ := alloc_spec hguard.1 n
    rcases hres with ⟨hnone, hperm⟩ | ⟨flat, hsome, hlen, hperm⟩
    · rw [show c.alloc.alloc n = (none, (c.alloc.alloc n).2) from by rw [← hnone]]
      refine .inl ⟨rfl, .of_lost h [] (hps.trans hguard.1.symm) hrows hwidth hback ?_ fun _ => rfl⟩
      rwa [append_nil]
    · rw [show c.alloc.alloc n = (some flat, (c.alloc.alloc n).2) from by rw [← hsome]]
      dsimp only
      split
      · rename_i hshort
        refine .inl ⟨rfl, .of_lost h flat (hps.trans hguard.1.symm) hrows hwidth hback hperm
          fun hle => ?_⟩
        omega
      · rename_i hfits
        rw [not_or, not_lt, not_lt] at hfits
        refine .inr ⟨rfl, ?_⟩
        have hrowFor : RowFor { c.setKv c.nextKv {} with nextKv := c.nextKv + 1 } c.nextKv idx
            pool 0 := ⟨hrows, hwidth, .inr ⟨by simp, rfl, hfree⟩⟩
        have htake : flat.take n = flat := take_of_length_le (by omega)
        have hacc := h.newRecord.appendSlots ⟨some idx, 0, n, n, 0⟩ (Nat.lt_succ_self _) hguard.1
          hrowFor hps hperm rfl (by simp [hlen]) rfl rfl (le_refl _) (hwidth ▸ hfits.1)
        refine ⟨hacc.congr ?_ rfl ?_ rfl, ⟨c.nextKv, idx, rfl, ?_, ?_, fun b hb => ?_,
          fun r hr hne => absurd (hno r hr) hne⟩, Nat.le_succ _, hwidth⟩
        · show pool.write idx 0 (flat.take n) = pool.write idx 0 flat
          rw [htake]
        · funext r
          show (if r = c.nextKv then _ else c.heap r) = if r = c.nextKv then _ else
            if r = c.nextKv then _ else c.heap r
          split <;> rfl
        · simp
        · simp
        · exact if_neg hb
  · rename_i res pool hnil hrow
    have hpool := (allocRows_one_none hrow hnil).2
    subst hpool
    exact .inl ⟨rfl, .refl h n⟩

/-- **`_ensure_slot`**: the slot has a row of `n` positions, or everything is as before. -/
theorem Accounts.ensureSlot (n : Nat) :
    ((c.ensureSlot n).1 = false ∧ NoRow c (c.ensureSlot n).2 pages n) ∨
      ((c.ensureSlot n).1 = true ∧ HasRow c (c.ensureSlot n).2 pages n) := by
  rw [Cache.ensureSlot]
  split
  · grind [h.allocSlot, map_eq_none_iff]
  rename_i ref idx hslot
  obtain ⟨ref', hslot, hidx⟩ := bind_eq_some_iff.1 hslot
  obtain ⟨idx', hidx, heq⟩ := map_eq_some_iff.1 hidx
  cases heq
  have hne : (c.heap ref).reqPoolIdx ≠ none := by rw [hidx]; simp
  have hkeep : ∀ r, c.slot = some r → (c.heap r).reqPoolIdx ≠ none → r = ref := by
    grind
  dsimp only
  split
  · rename_i hle
    exact .inr ⟨rfl, h, ⟨ref, idx, hslot, hidx, hle, fun _ _ => rfl, hkeep⟩, le_refl _, rfl⟩
  · rename_i hgt
    split
    · exact .inl ⟨rfl, .refl h n⟩
    rename_i hone
    rw [Decidable.not_not] at hone
    obtain ⟨hps, hres⟩ := alloc_spec hone (n - (c.heap ref).kvAllocatedLen)
    rcases hres with ⟨hnone, hperm⟩ | ⟨flat, hsome, hlen, hperm⟩
    · rw [show c.alloc.alloc (n - (c.heap ref).kvAllocatedLen) =
        (none, (c.alloc.alloc (n - (c.heap ref).kvAllocatedLen)).2) from by rw [← hnone]]
      refine .inl ⟨rfl, .of_lost h [] (hps.trans hone.symm) rfl rfl rfl ?_ fun _ => rfl⟩
      rwa [append_nil]
    · rw [show c.alloc.alloc (n - (c.heap ref).kvAllocatedLen) =
        (some flat, (c.alloc.alloc (n - (c.heap ref).kvAllocatedLen)).2) from by rw [← hsome]]
      dsimp only
      split
      · exact .inl ⟨rfl, .of_lost h flat (hps.trans hone.symm) rfl rfl rfl hperm
          fun hle => by omega⟩
      · rename_i hfits
        have hrec := h.record ref
        have hcom := hrec.committed hne
        have htake : flat.take (n - (c.heap ref).kvAllocatedLen) = flat :=
          take_of_length_le (by omega)
        rw [htake]
        refine .inr ⟨rfl, h.appendSlots _ (h.fresh ref hne) hone
          ⟨rfl, rfl, .inl ⟨hidx, rfl, rfl⟩⟩ hps hperm hidx ?_ hrec.evicted hrec.unprotected ?_
          (Nat.le_of_not_lt hfits), ⟨ref, idx, hslot, ?_, ?_, fun b hb => ?_, hkeep⟩,
          le_refl _, rfl⟩
        · grind
        · grind
        · rw [heap_setKv_self]
          exact hidx
        · rw [heap_setKv_self]
        · exact heap_setKv_of_ne _ _ hb

/-! ## What is held -/

/-- The entries of a row up to what is allocated lie in the pages of its record. -/
lemma Accounts.mem_pagesAt {p : Nat}
    (hidx : (c.heap a).reqPoolIdx = some idx) (hp : p < (c.heap a).kvAllocatedLen) :
    c.pool.rows idx p / c.pageSize ∈ c.pagesAt a :=
  mem_pagesOf h.page_pos hidx ((h.record a).aligned idx hidx) hp

lemma Accounts.not_mem_allFree (hnd : pages.Nodup) {x : Nat}
    (ha : (c.heap a).reqPoolIdx ≠ none) (hx : x ∈ c.pagesAt a) : x ∉ c.alloc.allFree :=
  not_mem_free_of_mem_share (h.book.nodup_iff.2 hnd) (mem_range.2 (h.fresh a ha)) hx

end
end Sglang.Sticky
