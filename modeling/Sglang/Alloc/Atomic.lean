import Sglang.Alloc.Swa
import Sglang.Lib.Runs

/-!
# What a failed allocation leaves behind

`alloc`, `alloc_extend` and `alloc_extend_swa_tail` ask both pools before they take from either, and
a pool that was asked never comes up short (`takes_allocExtend`).  `alloc_decode` does not ask: when
one pool has the pages a step needs and the other has not, it returns `None` and the pages of the
first are gone.  `failed_alloc_keeps_pages` says exactly that.

* `Took`, `Takes` and `Swa.Allocated` say what one allocation takes from one pool and from both.
* `Swa.Tidy.call`: every call keeps the two pools in order.
* `failed_alloc_keeps_pages`: a call that returns `None` leaves the free pages and the mapping as
  they were, exactly if it is not a decode step that fits one pool only.
* `failed_decode_loses_pages`: such a step exists.
-/

namespace Sglang.Alloc
open Lib List Swa

variable {ps : Nat} {p q : Pool} {batch : List ExtendReq}

/-! ## A pool in order -/

/-- Freed pages are staged only in a pool that sorts them. -/
structure Pool.Tidy (ps : Nat) (p : Pool) : Prop where
  pageSize : p.pageSize = ps
  staged : p.needSort = false → p.stagedPages = []

lemma Took.tidy {taken : List Nat} (h : Took p q taken) (hp : p.Tidy ps) : q.Tidy ps :=
  ⟨h.pageSize.trans hp.pageSize, fun hsort => h.staged (hp.staged (h.needSort ▸ hsort))⟩

lemma tidy_clear (ps : Nat) (needSort : Bool) (size : Nat) :
    (Pool.clear ps needSort size).Tidy ps := ⟨rfl, fun _ => rfl⟩

section
variable (h : p.Tidy ps)

include h

lemma Pool.Tidy.releasePageIds (pageIds : List Nat) : (p.releasePageIds pageIds).Tidy ps := by
  rw [Pool.releasePageIds]
  split
  · rename_i hsort
    exact ⟨h.pageSize, fun hno => absurd hsort (by rw [show p.needSort = false from hno]; simp)⟩
  · split <;> exact ⟨h.pageSize, h.staged⟩

lemma Pool.Tidy.free (freeIndex : List Nat) : (p.free freeIndex).Tidy ps := by
  rw [Pool.free]
  split
  · exact h
  split
  · exact h.releasePageIds _
  · exact ⟨h.pageSize, h.staged⟩

lemma Pool.Tidy.freePageIds (pageIds : List Nat) : (p.freePageIds pageIds).Tidy ps := by
  rw [Pool.freePageIds]
  split
  · exact h
  split
  · exact h.free _
  split
  · exact h.releasePageIds _
  · exact ⟨h.pageSize, h.staged⟩

lemma Pool.Tidy.freeSegment {freeIndex : List Nat} {startPos : Nat}
    (hq : p.freeSegment freeIndex startPos = .ok q) : q.Tidy ps := by
  rw [Pool.freeSegment] at hq
  split at hq
  · cases hq
    exact h.free _
  · split at hq
    · cases hq
      exact h
    · split at hq
      · cases hq
      · grind [h.freePageIds]

lemma Pool.Tidy.freeGroupBegin (hq : p.freeGroupBegin = .ok q) : q.Tidy ps := by
  rw [Pool.freeGroupBegin] at hq
  split at hq
  · cases hq
  · cases hq
    exact ⟨h.pageSize, h.staged⟩

lemma Pool.Tidy.freeGroupEnd : p.freeGroupEnd.Tidy ps := by
  have hclosed : ({ p with freeGroup := none } : Pool).Tidy ps := ⟨h.pageSize, h.staged⟩
  have hfreed : ∀ pending : List (List Nat), (if pending = [] then { p with freeGroup := none }
      else ({ p with freeGroup := none } : Pool).free pending.flatten).Tidy ps := fun pending => by
    grind [hclosed.free]
  rw [Pool.freeGroupEnd]
  have hq := hfreed (p.freeGroup.getD [])
  generalize (if p.freeGroup.getD [] = [] then { p with freeGroup := none }
      else ({ p with freeGroup := none } : Pool).free (p.freeGroup.getD []).flatten) = q at hq ⊢
  split
  · exact hq
  · have hrel := hq.releasePageIds q.freePageIdsGroup.flatten
    exact ⟨hrel.pageSize, hrel.staged⟩

end

/-! ## What a pool can give -/

/-- `available_size` counts the free pages, staged ones included. -/
lemma availableSize_eq (p : Pool) : p.availableSize = p.allFree.length * p.pageSize := by
  rw [Pool.availableSize, Pool.allFree, length_append]

/-- The free pages, as `new_pages_available` counts them. -/
lemma Pool.Tidy.availableSize_div (h : p.Tidy ps) (hps : 0 < ps) :
    p.availableSize / ps = p.allFree.length := by
  rw [availableSize_eq, h.pageSize, Nat.mul_div_cancel _ hps]

/-- The new pages of a request hold its new tokens and less than a page more. -/
lemma newPages_mul_le (hps : 0 < ps) (r : ExtendReq) :
    r.newPages ps * ps ≤ r.extendLen + (ps - 1) := by
  have hseq := pages_mul_lt hps r.seqLen
  have hpre := le_mul_pages hps r.prefixLen
  rw [ExtendReq.newPages, ExtendReq.extendLen, Nat.sub_mul]
  rw [mul_comm ps] at hpre
  omega

/-- `alloc_extend` looks for more pages than it takes. -/
lemma getNumNewPages_le (hps : 0 < ps) (batch : List ExtendReq) :
    getNumNewPages ps batch ≤ numTokens batch / ps + batch.length + 1 := by
  have hsum : getNumNewPages ps batch * ps ≤ numTokens batch + batch.length * (ps - 1) := by
    induction batch with
    | nil => simp [getNumNewPages]
    | cons r batch ih =>
      have hr := newPages_mul_le hps r
      rw [getNumNewPages, numTokens, map_cons, map_cons, sum_cons, sum_cons,
        ← getNumNewPages, ← numTokens, add_mul, length_cons, Nat.succ_mul]
      omega
  have hdiv : numTokens batch < (numTokens batch / ps + 1) * ps :=
    Nat.lt_mul_of_div_lt (Nat.lt_succ_self _) hps
  have hlen : batch.length * (ps - 1) ≤ batch.length * ps := Nat.mul_le_mul_left _ (by omega)
  refine le_of_lt (Nat.lt_of_mul_lt_mul_right (a := ps) ?_)
  calc getNumNewPages ps batch * ps ≤ numTokens batch + batch.length * ps := by omega
    _ < (numTokens batch / ps + 1) * ps + batch.length * ps := by omega
    _ = (numTokens batch / ps + batch.length + 1) * ps := by
      grind

/-- What an allocation that needs `n` pages does to a pool: it fails for want of pages and changes
nothing, or it takes them from the front of a free list and returns what `Out` says. -/
inductive Takes (p : Pool) (n : Nat) (Out : List Nat → List Nat → Prop) :
    Option (List Nat) × Pool → Prop
  | short {q : Pool} (hshort : p.allFree.length < n) (h : Took p q []) : Takes p n Out (none, q)
  | took {free out : List Nat} {q : Pool} (hroom : n ≤ free.length) (hout : Out free out)
      (h : Took p q (free.take n)) : Takes p n Out (some out, q)

variable {Out : List Nat → List Nat → Prop} {n : Nat} {res : Option (List Nat) × Pool}

/-- Slicing pages off the front, after a merge for at least as many. -/
lemma takes_take (p : Pool) {w : Nat} (hw : n ≤ w) {out : List Nat}
    (hout : Out (p.mergeFor w).freePages out) : Takes p n Out ((p.mergeFor w).take n out) := by
  rcases take_cases p hw out with ⟨hshort, heq⟩ | ⟨-, hroom, q, heq, htook⟩
  · exact heq ▸ .short hshort (took_mergeFor p w)
  · exact heq ▸ .took hroom hout htook

/-- `alloc_extend` of one pool takes the pages that the batch needs, or nothing if they are not
there. -/
lemma takes_allocExtend (hps : 0 < ps) (hp : p.Tidy ps) (batch : List ExtendReq) :
    Takes p (getNumNewPages ps batch) (fun free out => out = extendSlots ps free batch)
      (p.allocExtend batch (numTokens batch) (some (getNumNewPages ps batch))) := by
  obtain ⟨rfl, -⟩ := hp
  rw [allocExtend_eq hps batch rfl]
  exact takes_take p (getNumNewPages_le hps batch) rfl

/-- `alloc_decode` of one pool takes a page for each request that starts one, or nothing. -/
lemma takes_allocDecode (hp : p.Tidy ps) (batch : List ExtendReq) :
    Takes p (getNumNewPagesDecode ps batch) (fun _ _ => True) (p.allocDecode batch) := by
  obtain ⟨rfl, -⟩ := hp
  have hpage := (took_mergeFor p batch.length).pageSize
  have heq : p.allocDecode batch = (p.mergeFor batch.length).take
      (getNumNewPagesDecode p.pageSize batch)
      (launched (allocDecodeKernel batch (p.mergeFor batch.length).freePages
        (nextPowerOf2 batch.length) p.pageSize) batch.length batch.length) := by
    simp [Pool.allocDecode, Pool.take, hpage]
  rw [heq]
  exact takes_take p countP_le_length trivial

lemma takes_allocTokens (hp : p.Tidy ps) (n : Nat) :
    Takes p n (fun free out => out = free.take n) (p.allocTokens n) := by
  rw [Pool.allocTokens]
  cases hsort : p.needSort with
  | true => exact takes_take p (le_refl n) rfl
  | false =>
    -- Nothing is staged, so all free pages are at hand.
    have hall : p.allFree = p.freePages := by
      rw [Pool.allFree, hp.staged hsort, flatten_nil, append_nil]
    show Takes p n _ (p.take n (p.freePages.take n))
    by_cases h : p.freePages.length < n
    · have heq : p.take n (p.freePages.take n) = (none, p) := if_pos h
      exact heq ▸ .short (hall ▸ h) (.refl p)
    · obtain ⟨q, heq, htook, -⟩ := took_take (not_lt.1 h) (p.freePages.take n)
      exact heq ▸ .took (not_lt.1 h) rfl htook

/-- Asked before, a pool does not fail. -/
lemma Takes.exists_took (h : Takes p n Out res) (hroom : n ≤ p.allFree.length) :
    ∃ free out q, res = (some out, q) ∧ n ≤ free.length ∧ Out free out ∧
      Took p q (free.take n) := by
  cases h with
  | short hshort => omega
  | took hroom hout htook => exact ⟨_, _, _, rfl, hroom, hout, htook⟩

lemma Takes.tidy (h : Takes p n Out res) (hp : p.Tidy ps) : res.2.Tidy ps := by
  cases h with
  | short _ htook => exact htook.tidy hp
  | took _ _ htook => exact htook.tidy hp

/-! ## The allocations, case by case -/

/-- Both pools are in order. -/
structure Swa.Tidy (ps : Nat) (s : Swa) : Prop where
  pageSize : s.pageSize = ps
  full : s.full.Tidy ps
  swa : s.swa.Tidy ps

variable {s s' : Swa}

@[simp] lemma getNumNewPages_translate (s : Swa) (batch : List ExtendReq) :
    getNumNewPages ps (batch.map s.translate) = getNumNewPages ps batch := by
  rw [getNumNewPages, getNumNewPages, map_map]
  rfl

@[simp] lemma getNumNewPagesDecode_translate (s : Swa) (batch : List ExtendReq) :
    getNumNewPagesDecode ps (batch.map s.translate) = getNumNewPagesDecode ps batch := by
  rw [getNumNewPagesDecode, getNumNewPagesDecode, countP_map]
  rfl

@[simp] lemma numTokens_translate (s : Swa) (batch : List ExtendReq) :
    numTokens (batch.map s.translate) = numTokens batch := by
  rw [numTokens, numTokens, map_map]
  rfl

/-- The assertion on the lengths is the only thing that can go wrong. -/
lemma setFullToSwaMapping_eq {fullIndices swaIndices : List Nat}
    (h : fullIndices.length = swaIndices.length) : s.setFullToSwaMapping fullIndices swaIndices =
      .ok { s with mapping := assign s.mapping fullIndices swaIndices } := by
  rw [setFullToSwaMapping, if_neg (not_not.2 h)]
  split
  · rename_i hnil
    rw [hnil]
    rfl
  · rfl

variable {nf ns : Nat}

/-- The check before an allocation asks for free pages of both pools, and of the full pool only when
the window is a ring. -/
lemma newPagesAvailable_iff (h : s.Tidy ps) (hps : 0 < ps) :
    s.newPagesAvailable nf ns = true ↔
      nf ≤ s.full.allFree.length ∧ (s.swaReqRing = true ∨ ns ≤ s.swa.allFree.length) := by
  simp [newPagesAvailable, h.pageSize, h.full.availableSize_div hps,
    h.swa.availableSize_div hps]

/-- How an allocation ends that asks the pools for `nf` and `ns` pages first: nothing happens, or
only the full pool gives, or both give and what they gave is mapped. -/
inductive Swa.Allocated (s : Swa) (nf ns : Nat) (Out OutSwa : List Nat → List Nat → Prop)
    (remap : List Nat → List Nat → Nat → Nat) :
    Except AllocFault (Option (List Nat) × Swa) → Prop
  | asked (h : s.full.allFree.length < nf ∨ s.swa.allFree.length < ns) :
      s.Allocated nf ns Out OutSwa remap (.ok (none, s))
  | fullOnly {free out : List Nat} {full : Pool} (hwhy : s.swaReqRing = true ∨ ns = 0)
      (hroom : nf ≤ free.length) (hout : Out free out) (htook : Took s.full full (free.take nf)) :
      s.Allocated nf ns Out OutSwa remap (.ok (some out, { s with full := full }))
  | both {free out freeSwa outSwa : List Nat} {full swa : Pool}
      (hring : s.swaReqRing = false ∨ s.pageSize = 1)
      (hroom : nf ≤ free.length) (hout : Out free out) (htook : Took s.full full (free.take nf))
      (hroomSwa : ns ≤ freeSwa.length) (houtSwa : OutSwa freeSwa outSwa)
      (htookSwa : Took s.swa swa (freeSwa.take ns)) :
      s.Allocated nf ns Out OutSwa remap
        (.ok (some out, { s with full := full, swa := swa, mapping := remap out outSwa }))

lemma allocated_alloc (h : s.Tidy 1) (n : Nat) :
    s.Allocated n n (fun free out => out = free.take n) (fun free out => out = free.take n)
      (assign s.mapping) (s.alloc n) := by
  have hsize : ∀ {p : Pool}, p.Tidy 1 → p.availableSize = p.allFree.length := fun hp => by
    rw [availableSize_eq, hp.pageSize, mul_one]
  rw [alloc, if_neg (not_not.2 h.pageSize), hsize h.full, hsize h.swa]
  split
  · rename_i hshort
    exact .asked (.inl hshort)
  split
  · rename_i hshort
    exact .asked (.inr hshort)
  obtain ⟨free, out, full, heq, hroom, rfl, htook⟩ :=
    (takes_allocTokens h.full n).exists_took (by omega)
  obtain ⟨freeSwa, outSwa, swa, heqSwa, hroomSwa, rfl, htookSwa⟩ :=
    (takes_allocTokens h.swa n).exists_took (by omega)
  rw [heq, heqSwa]
  show s.Allocated n n _ _ _ (setFullToSwaMapping _ _ _ >>= _)
  rw [setFullToSwaMapping_eq (by
    rw [length_take_of_le hroom, length_take_of_le hroomSwa])]
  exact .both (.inr h.pageSize) hroom rfl htook hroomSwa rfl htookSwa

variable {OutSwa : List Nat → List Nat → Prop} {remap : List Nat → List Nat → Nat → Nat}

lemma allocated_allocFullOnly {m : Nat} {Out : List Nat → List Nat → Prop}
    (hring : s.swaReqRing = true) (h : Takes s.full n Out (s.full.allocExtend batch m (some n)))
    (hroom : n ≤ s.full.allFree.length) :
    s.Allocated n ns Out OutSwa remap (.ok (s.allocFullOnly batch m n)) := by
  obtain ⟨free, out, full, heq, hroom, hout, htook⟩ := h.exists_took hroom
  rw [allocFullOnly, heq]
  exact .fullOnly (.inl hring) hroom hout htook

/-- A check that fails names a pool that is short. -/
lemma asked_of_not_available (h : s.Tidy ps) (hps : 0 < ps)
    (hno : ¬ s.newPagesAvailable nf ns = true) :
    s.full.allFree.length < nf ∨ s.swa.allFree.length < ns := by
  grind [newPagesAvailable_iff]

/-- `alloc_extend` of the hybrid allocator checks both pools first, so it takes from both or from
none. -/
lemma allocated_allocExtend (h : s.Tidy ps) (hps : 1 < ps) (batch : List ExtendReq) :
    s.Allocated (getNumNewPages ps batch) (getNumNewPages ps batch)
      (fun free out => out = extendSlots ps free batch)
      (fun free out => out = extendSlots ps free (batch.map s.translate))
      (assign s.mapping) (s.allocExtend batch (numTokens batch)) := by
  obtain rfl := h.pageSize
  have hpos : 0 < s.pageSize := by omega
  have hfull := takes_allocExtend hpos h.full batch
  have hswa := takes_allocExtend hpos h.swa (batch.map s.translate)
  rw [getNumNewPages_translate, numTokens_translate] at hswa
  simp only [allocExtend, if_neg (not_le.2 hps), Bool.not_eq_true']
  split
  · rename_i hno
    exact .asked (asked_of_not_available h hpos (by rw [hno]; simp))
  rename_i hroom
  rw [Bool.not_eq_false, newPagesAvailable_iff h hpos] at hroom
  split
  · rename_i hring
    exact allocated_allocFullOnly hring hfull hroom.1
  rename_i hring
  obtain ⟨free, out, full, heq, hroomFull, rfl, htook⟩ := hfull.exists_took hroom.1
  obtain ⟨freeSwa, outSwa, swa, heqSwa, hroomSwa, rfl, htookSwa⟩ :=
    hswa.exists_took (hroom.2.resolve_left hring)
  rw [heq, heqSwa]
  show s.Allocated _ _ _ _ _ (setFullToSwaMapping _ _ _ >>= _)
  rw [setFullToSwaMapping_eq (by rw [length_extendSlots, length_extendSlots, numTokens_translate])]
  exact .both (.inl (Bool.not_eq_true _ ▸ hring)) hroomFull rfl htook hroomSwa rfl htookSwa

/-- The request whose slots are the tail, for the sliding-window pool. -/
def tailReq (swaTailLen : Nat) : ExtendReq := ⟨0, swaTailLen, none, Nat.zero_le _⟩

@[simp] lemma getNumNewPages_tailReq (ps n : Nat) :
    getNumNewPages ps [tailReq n] = pages ps n := by
  show pages ps n - pages ps 0 + 0 = pages ps n
  rw [pages_zero, Nat.sub_zero, add_zero]

/-- The tail is mapped, and nothing before it; without a tail the mapping is left alone. -/
def mapTail (m : Nat → Nat) (swaTailLen : Nat) (out outSwa : List Nat) : Nat → Nat :=
  if swaTailLen = 0 then m
  else clearAt (assign m (out.drop (out.length - swaTailLen)) outSwa)
    (out.take (out.length - swaTailLen))

lemma clearAt_nil (m : Nat → Nat) : clearAt m [] = m := rfl

variable {tail : Nat}

/-- As for `alloc_extend`, with window pages for the tail of the request only. -/
lemma allocated_allocExtendSwaTail (h : s.Tidy ps) (hps : 1 < ps) (r : ExtendReq)
    (htail : tail ≤ r.extendLen) :
    s.Allocated (r.newPages ps) (pages ps tail)
      (fun free out => out = extendSlots ps free [r])
      (fun free out => out = extendSlots ps free [tailReq tail])
      (mapTail s.mapping tail) (s.allocExtendSwaTail [r] r.extendLen tail) := by
  obtain rfl := h.pageSize
  have hpos : 0 < s.pageSize := by omega
  have hnum : getNumNewPages s.pageSize [r] = r.newPages s.pageSize := rfl
  have htokens : numTokens [r] = r.extendLen := rfl
  have hfull := takes_allocExtend hpos h.full [r]
  have hswa := takes_allocExtend hpos h.swa [tailReq tail]
  have htokensTail : numTokens [tailReq tail] = tail := rfl
  rw [hnum, htokens] at hfull
  rw [getNumNewPages_tailReq, htokensTail] at hswa
  simp only [allocExtendSwaTail, if_neg (not_le.2 hps), hnum, Bool.not_eq_true']
  rw [if_neg (by
    rw [not_or, not_not, not_lt]
    exact ⟨rfl, htail⟩)]
  split
  · rename_i hno
    exact .asked (asked_of_not_available h hpos (by rw [hno]; simp))
  rename_i hroom
  rw [Bool.not_eq_false, newPagesAvailable_iff h hpos] at hroom
  split
  · grind [allocated_allocFullOnly]
  rename_i hring
  obtain ⟨free, out, full, heq, hroomFull, rfl, htook⟩ := hfull.exists_took hroom.1
  rw [heq]
  show s.Allocated _ _ _ _ _ (if _ then _ else _)
  split
  · rename_i hnone
    exact .fullOnly (.inr (by rw [hnone, pages_zero])) hroomFull rfl htook
  rename_i hsome
  obtain ⟨freeSwa, outSwa, swa, heqSwa, hroomSwa, rfl, htookSwa⟩ :=
    hswa.exists_took (hroom.2.resolve_left hring)
  have hlen : (extendSlots s.pageSize free [r]).length = r.extendLen := length_extendSlots _ _ _
  rw [show (⟨0, tail, none, Nat.zero_le _⟩ : ExtendReq) = tailReq tail from rfl, heqSwa]
  show s.Allocated _ _ _ _ _ (setFullToSwaMapping _ _ _ >>= _)
  rw [setFullToSwaMapping_eq (by
    rw [length_drop, hlen, length_extendSlots, htokensTail]
    omega)]
  have hboth : s.Allocated (r.newPages s.pageSize) (pages s.pageSize tail)
      (fun free out => out = extendSlots s.pageSize free [r])
      (fun free out => out = extendSlots s.pageSize free [tailReq tail]) (mapTail s.mapping tail)
      (.ok (some _, _)) :=
    .both (.inl (Bool.not_eq_true _ ▸ hring)) hroomFull rfl htook hroomSwa rfl htookSwa
  rw [mapTail, if_neg hsome] at hboth
  by_cases hlt : tail < r.extendLen
  · simp only [if_pos hlt]
    exact hboth
  · simp only [if_neg hlt]
    rw [hlen, show r.extendLen - tail = 0 by omega, take_zero, clearAt_nil] at hboth
    rw [hlen, show r.extendLen - tail = 0 by omega]
    exact hboth

/-- With a ring per request there is only the full pool to ask. -/
lemma allocDecode_ring (h : s.Tidy ps) (hps : 1 < ps) (hring : s.swaReqRing = true)
    (batch : List ExtendReq) : s.allocDecode batch =
      .ok ((s.full.allocDecode batch).1, { s with full := (s.full.allocDecode batch).2 }) := by
  rw [allocDecode, h.pageSize, if_neg (not_le.2 hps), if_pos hring]

/-- Without a ring `alloc_decode` takes from both pools, whatever comes of it. -/
lemma allocDecode_both (h : s.Tidy ps) (hps : 1 < ps) (hring : s.swaReqRing = false)
    (batch : List ExtendReq) {full swa : Option (List Nat) × Pool}
    (hfull : s.full.allocDecode batch = full)
    (hswa : s.swa.allocDecode (batch.map s.translate) = swa) :
    s.allocDecode batch = .ok (match full.1, swa.1 with
      | some out, some outSwa => (some out,
          { s with full := full.2, swa := swa.2, mapping := assign s.mapping out outSwa })
      | _, _ => (none, { s with full := full.2, swa := swa.2 })) := by
  rw [allocDecode, h.pageSize, if_neg (not_le.2 hps), if_neg (by rw [hring]; simp), hfull, hswa]
  obtain ⟨out, full⟩ := full
  obtain ⟨outSwa, swa⟩ := swa
  cases out <;> cases outSwa <;> rfl

lemma Swa.Allocated.tidy {Out : List Nat → List Nat → Prop} {res : Option (List Nat) × Swa}
    (ha : s.Allocated nf ns Out OutSwa remap (.ok res)) (h : s.Tidy ps) : res.2.Tidy ps := by
  cases ha with
  | asked => exact h
  | fullOnly _ _ _ htook => exact ⟨h.pageSize, htook.tidy h.full, h.swa⟩
  | both _ _ _ htook _ _ htookSwa => exact ⟨h.pageSize, htook.tidy h.full, htookSwa.tidy h.swa⟩

/-! ## The frees keep the pools in order -/

namespace Swa.Tidy
variable {swaIndices : List Nat}

lemma set (h : s.Tidy ps) {fullIndices : List Nat}
    (hs : s.setFullToSwaMapping fullIndices swaIndices = .ok s') : s'.Tidy ps := by
  rw [setFullToSwaMapping] at hs
  split at hs
  · cases hs
    exact h
  · split at hs
    · cases hs
    · cases hs
      exact ⟨h.pageSize, h.full, h.swa⟩

lemma releaseSwa (h : s.Tidy ps) (hs : s.releaseSwa swaIndices = .ok s') : s'.Tidy ps := by
  rw [Swa.releaseSwa, bind_ok] at hs
  obtain ⟨-, -, hs⟩ := hs
  rw [pure_ok] at hs
  exact hs ▸ ⟨h.pageSize, h.full, h.swa.free _⟩

variable {freeIndex : List Nat} {startPos : Nat}

section
variable (h : s.Tidy ps)

include h

lemma freeSwaPages (hs : s.freeSwaPages freeIndex startPos = .ok s') : s'.Tidy ps := by
  simp only [Swa.freeSwaPages] at hs
  split at hs
  · cases hs
  split at hs
  · cases hs
    exact ⟨h.pageSize, h.full, h.swa⟩
  split at hs
  · cases hs
    exact ⟨h.pageSize, h.full, h.swa⟩
  · rw [bind_ok] at hs
    obtain ⟨-, -, hs⟩ := hs
    rw [pure_ok] at hs
    exact hs ▸ ⟨h.pageSize, h.full, h.swa.freePageIds _⟩

lemma freeSwa (hs : s.freeSwa freeIndex = .ok s') : s'.Tidy ps := by
  simp only [Swa.freeSwa] at hs
  split at hs
  · cases hs
    exact h
  split at hs
  · exact h.freeSwaPages hs
  split at hs
  · cases hs
    exact ⟨h.pageSize, h.full, h.swa⟩
  · exact releaseSwa (s := s.clearFullToSwaMapping _) ⟨h.pageSize, h.full, h.swa⟩ hs

lemma freeSwaSegment (hs : s.freeSwaSegment freeIndex startPos = .ok s') : s'.Tidy ps := by
  grind [freeSwaSegment, h.freeSwaPages]

lemma freeFull (hs : s.freeFull freeIndex = .ok s') : s'.Tidy ps := by
  rw [Swa.freeFull] at hs
  split at hs
  · cases hs
    exact h
  · rw [bind_ok] at hs
    obtain ⟨-, -, hs⟩ := hs
    rw [pure_ok] at hs
    exact hs ▸ ⟨h.pageSize, h.full.free _, h.swa⟩

lemma freeFullSegment (hs : s.freeFullSegment freeIndex startPos = .ok s') : s'.Tidy ps := by
  rw [Swa.freeFullSegment] at hs
  split at hs
  · cases hs
    exact h
  · rw [bind_ok] at hs
    obtain ⟨full, hfull, hs⟩ := hs
    rw [pure_ok] at hs
    exact hs ▸ ⟨h.pageSize, h.full.freeSegment hfull, h.swa⟩

lemma free (hs : s.free freeIndex = .ok s') : s'.Tidy ps := by
  rw [Swa.free] at hs
  split at hs
  · cases hs
    exact h
  · rw [bind_ok] at hs
    obtain ⟨s1, h1, hs⟩ := hs
    exact (h.freeSwa h1).freeFull hs

lemma freeSegment (hs : s.freeSegment freeIndex startPos = .ok s') : s'.Tidy ps := by
  rw [Swa.freeSegment] at hs
  split at hs
  · cases hs
    exact h
  · rw [bind_ok] at hs
    obtain ⟨s1, h1, hs⟩ := hs
    exact (h.freeSwaSegment h1).freeFullSegment hs

lemma freeGroupBegin (hs : s.freeGroupBegin = .ok s') : s'.Tidy ps := by
  rw [Swa.freeGroupBegin] at hs
  split at hs
  · cases hs
  rw [bind_ok] at hs
  obtain ⟨full, hfull, hs⟩ := hs
  rw [pure_ok] at hs
  exact hs ▸ ⟨h.pageSize, h.full.freeGroupBegin hfull, h.swa⟩

lemma repoint {kept incoming : List Nat}
    (hs : s.repoint kept incoming = .ok s') : s'.Tidy ps := by
  rw [Swa.repoint, bind_ok] at hs
  obtain ⟨s1, hset, hs⟩ := hs
  have h1 := h.set hset
  exact freeFullSegment (s := s1.clearFullToSwaMapping incoming)
    ⟨h1.pageSize, h1.full, h1.swa⟩ hs

lemma endPageIds : s.endPageIds.Tidy ps := by
  rw [Swa.endPageIds]
  split
  · exact h
  refine ⟨h.pageSize, h.full, ?_⟩
  split
  · exact h.swa
  · exact h.swa.freePageIds _

lemma endFreeGroup (hs : s.endFreeGroup = .ok s') : s'.Tidy ps := by
  rw [Swa.endFreeGroup] at hs
  split at hs
  · cases hs
    exact h
  · exact releaseSwa (s := { s with swaFreeGroup := [] }) ⟨h.pageSize, h.full, h.swa⟩ hs

lemma freeGroupEnd (hs : s.freeGroupEnd = .ok s') : s'.Tidy ps := by
  rw [Swa.freeGroupEnd, bind_ok] at hs
  obtain ⟨s1, h1, hs⟩ := hs
  rw [bind_ok] at hs
  obtain ⟨-, -, hs⟩ := hs
  rw [bind_ok] at hs
  obtain ⟨-, -, hs⟩ := hs
  rw [pure_ok] at hs
  have hclosed : ({ s with freeGroup := false } : Swa).Tidy ps := ⟨h.pageSize, h.full, h.swa⟩
  have ht := hclosed.endPageIds.endFreeGroup h1
  exact hs ▸ ⟨ht.pageSize, ht.full.freeGroupEnd, ht.swa⟩

end
end Swa.Tidy

/-- What every free of a segment preserves, a sequence of them preserves. -/
lemma forSegments_invariant {I : Swa → Prop}
    {f : Swa → List Nat → Nat → Except AllocFault Swa}
    (hf : ∀ {s s' freeIndex startPos}, I s → f s freeIndex startPos = .ok s' → I s') :
    ∀ {segments} {prevEnd : Option Nat} {s s'}, I s →
      forSegments f prevEnd s segments = .ok s' → I s'
  | [], _, _, _, h, hs => by
    cases hs
    exact h
  | (freeIndex, startPos) :: segments, _, _, _, h, hs => by
    rw [forSegments] at hs
    split at hs
    · exact forSegments_invariant hf h hs
    split at hs
    · cases hs
    rw [bind_ok] at hs
    obtain ⟨s1, h1, hs⟩ := hs
    exact forSegments_invariant hf (hf h h1) hs

/-! ## Which calls are let through -/

lemma alloc_ok {res : Option (List Nat) × Swa} (hs : s.alloc n = .ok res) : s.pageSize = 1 := by
  grind [alloc]

lemma allocExtend_ok {res : Option (List Nat) × Swa} (hs : s.allocExtend batch n = .ok res) :
    1 < s.pageSize := by
  grind [allocExtend]

lemma allocExtendSwaTail_ok {res : Option (List Nat) × Swa}
    (hs : s.allocExtendSwaTail batch n tail = .ok res) : 1 < s.pageSize ∧ tail ≤ n := by
  grind [allocExtendSwaTail]

lemma allocDecode_ok {res : Option (List Nat) × Swa} (hs : s.allocDecode batch = .ok res) :
    1 < s.pageSize := by
  grind [allocDecode]

lemma Swa.Tidy.allocDecode {res : Option (List Nat) × Swa} (h : s.Tidy ps)
    (hs : s.allocDecode batch = .ok res) : res.2.Tidy ps := by
  have hps : 1 < ps := h.pageSize ▸ allocDecode_ok hs
  have hfull := (takes_allocDecode h.full batch).tidy h.full
  cases hring : s.swaReqRing with
  | true =>
    rw [allocDecode_ring h hps hring] at hs
    cases hs
    exact ⟨h.pageSize, hfull, h.swa⟩
  | false =>
    have hswa := (takes_allocDecode h.swa (batch.map s.translate)).tidy h.swa
    rw [allocDecode_both h hps hring batch rfl rfl] at hs
    cases hs
    split
    · exact ⟨h.pageSize, hfull, hswa⟩
    · exact ⟨h.pageSize, hfull, hswa⟩

/-- **Every call keeps the pools in order.** -/
theorem Swa.Tidy.call {res : Option (List Nat) × Swa} (h : s.Tidy ps) (c : SwaCall)
    (hs : s.call c = .ok res) : res.2.Tidy ps := by
  have hone : ∀ {x : Except AllocFault Swa},
      (x >>= fun s' => pure (none, s')) = .ok res → x = .ok res.2 := fun hx => by
    grind [bind_ok, pure_ok]
  cases c with
  | alloc n =>
    have hps := alloc_ok hs
    obtain rfl := h.pageSize
    have halloc := allocated_alloc (hps ▸ h) n
    rw [show s.alloc n = .ok res from hs] at halloc
    exact halloc.tidy h
  | allocExtend batch =>
    have halloc := allocated_allocExtend h (h.pageSize ▸ allocExtend_ok hs) batch
    rw [show s.allocExtend batch (numTokens batch) = .ok res from hs] at halloc
    exact halloc.tidy h
  | allocExtendSwaTail r tail =>
    obtain ⟨hps, htail⟩ := allocExtendSwaTail_ok hs
    have halloc := allocated_allocExtendSwaTail h (h.pageSize ▸ hps) r htail
    rw [show s.allocExtendSwaTail [r] r.extendLen tail = .ok res from hs] at halloc
    exact halloc.tidy h
  | allocDecode batch => exact h.allocDecode hs
  | free freeIndex => exact h.free (hone hs)
  | freeSwa freeIndex => exact h.freeSwa (hone hs)
  | freeFull freeIndex => exact h.freeFull (hone hs)
  | freeSegment freeIndex startPos => exact h.freeSegment (hone hs)
  | freeSwaSegment freeIndex startPos => exact h.freeSwaSegment (hone hs)
  | freeFullSegment freeIndex startPos => exact h.freeFullSegment (hone hs)
  | freeSegments segments => exact forSegments_invariant (fun h hs => h.freeSegment hs) h (hone hs)
  | freeFullSegments segments =>
    exact forSegments_invariant (fun h hs => h.freeFullSegment hs) h (hone hs)
  | repoint kept incoming => exact h.repoint (hone hs)
  | freeGroupBegin => exact h.freeGroupBegin (hone hs)
  | freeGroupEnd => exact h.freeGroupEnd (hone hs)

/-! ## Failed allocations -/

/-- One call after the other; a fault ends the process. -/
def Swa.step (s : Swa) (c : SwaCall) : Option Swa := (s.call c).toOption.map Prod.snd

/-- The calls that allocate. -/
def SwaCall.Allocates : SwaCall → Prop
  | .alloc _ | .allocExtend _ | .allocExtendSwaTail _ _ | .allocDecode _ => True
  | _ => False

/-- The free pages of both pools and the mapping are the same. -/
structure Swa.Unchanged (s s' : Swa) : Prop where
  full : s'.full.allFree.Perm s.full.allFree
  swa : s'.swa.allFree.Perm s.swa.allFree
  mapping : s'.mapping = s.mapping

/-- A decode step for which one pool has the pages and the other has not. -/
def Swa.HalfFits (s : Swa) : SwaCall → Prop
  | .allocDecode batch => s.swaReqRing = false ∧
      ¬ (getNumNewPagesDecode s.pageSize batch ≤ s.full.availableSize / s.pageSize ↔
        getNumNewPagesDecode s.pageSize batch ≤ s.swa.availableSize / s.pageSize)
  | _ => False

/-- A pool that gave pages has fewer. -/
lemma Took.not_perm {free : List Nat} (h : Took p q (free.take n)) (hroom : n ≤ free.length)
    (hn : 0 < n) : ¬ q.allFree.Perm p.allFree := by
  intro hperm
  have hlen := h.allFree.length_eq
  rw [length_append, length_take_of_le hroom, hperm.length_eq] at hlen
  omega

variable {c : SwaCall}

/-- A call that raises is no call that returns `None`, so nothing is claimed of it. -/
lemma keeps_pages_of_refused {e : AllocFault} (h : s.call c = .error e) (he : e ≠ .tookNothing) :
    (∀ s', s.call c = .ok (none, s') → (s.Unchanged s' ↔ ¬ s.HalfFits c)) ∧
      s.call c ≠ .error .tookNothing := by
  grind

/-- An allocation that asks first and fails changes nothing. -/
lemma Swa.Allocated.keeps_pages {Out : List Nat → List Nat → Prop}
    {res : Except AllocFault (Option (List Nat) × Swa)}
    (h : s.Allocated nf ns Out OutSwa remap res) (hres : s.call c = res) (hhalf : ¬ s.HalfFits c) :
    (∀ s', s.call c = .ok (none, s') → (s.Unchanged s' ↔ ¬ s.HalfFits c)) ∧
      s.call c ≠ .error .tookNothing := by
  rw [hres]
  cases h with
  | asked =>
    refine ⟨fun s' hs => ?_, fun hs => by cases hs⟩
    cases hs
    exact ⟨fun _ => hhalf, fun _ => ⟨.refl _, .refl _, rfl⟩⟩
  | fullOnly => exact ⟨fun s' hs => (by cases hs), fun hs => by cases hs⟩
  | both => exact ⟨fun s' hs => (by cases hs), fun hs => by cases hs⟩

/-- `alloc_decode` asks no pool beforehand: when it returns `None`, the pages of the pool that could
serve it are gone. -/
lemma unchanged_allocDecode_iff (h : s.Tidy ps) (hs : s.allocDecode batch = .ok (none, s')) :
    s.Unchanged s' ↔ ¬ s.HalfFits (.allocDecode batch) := by
  have hps : 1 < ps := h.pageSize ▸ allocDecode_ok hs
  have hpos : 0 < ps := by omega
  have hfull := takes_allocDecode h.full batch
  have hswa := takes_allocDecode h.swa (batch.map s.translate)
  rw [getNumNewPagesDecode_translate] at hswa
  rw [Swa.HalfFits, h.pageSize, h.full.availableSize_div hpos, h.swa.availableSize_div hpos]
  cases hring : s.swaReqRing with
  | true =>
    rw [allocDecode_ring h hps hring] at hs
    generalize s.full.allocDecode batch = f at hs hfull
    cases hfull with
    | short _ htook =>
      cases hs
      exact ⟨fun _ hhalf => absurd hhalf.1 (by simp), fun _ => ⟨htook.allFree, .refl _, rfl⟩⟩
    | took => cases hs
  | false =>
    rw [allocDecode_both h hps hring batch rfl rfl] at hs
    generalize s.full.allocDecode batch = f at hs hfull
    generalize s.swa.allocDecode (batch.map s.translate) = w at hs hswa
    cases hfull with
    | short hshort htook =>
      cases hswa with
      | short hshortSwa htookSwa =>
        cases hs
        refine ⟨fun _ hhalf => hhalf.2 ?_, fun _ => ⟨htook.allFree, htookSwa.allFree, rfl⟩⟩
        omega
      | took hroom _ htookSwa =>
        cases hs
        have hlen := htookSwa.allFree.length_eq
        rw [length_append, length_take_of_le hroom] at hlen
        refine ⟨fun hsame => absurd hsame.swa (htookSwa.not_perm hroom (by omega)), fun hhalf => ?_⟩
        exact absurd ⟨rfl, by omega⟩ hhalf
    | took hroom _ htook =>
      have hlen := htook.allFree.length_eq
      rw [length_append, length_take_of_le hroom] at hlen
      cases hswa with
      | short hshortSwa htookSwa =>
        cases hs
        refine ⟨fun hsame => absurd hsame.full (htook.not_perm hroom (by omega)), fun hhalf => ?_⟩
        exact absurd ⟨rfl, by omega⟩ hhalf
      | took => cases hs

/-- **A failed allocation has no effect**, except where a decode step fits one pool and not the
other.  In every state the calls of the allocator lead to, whatever they were, an allocation that
returns `None` leaves the free pages and the mapping as they were unless it is such a step, and then
it does not; and no allocation finds a pool short after asking it. -/
theorem failed_alloc_keeps_pages {ps : Nat} {cuda swaReqRing needSort : Bool} {size sizeSwa : Nat}
    {s : Swa} (hrun : Run step (fun _ _ => True)
      (clear ps cuda swaReqRing needSort size sizeSwa) s) {c : SwaCall} (hc : c.Allocates) :
    (∀ s', s.call c = .ok (none, s') → (s.Unchanged s' ↔ ¬ s.HalfFits c)) ∧
      s.call c ≠ .error .tookNothing := by
  have h : s.Tidy ps := by
    refine hrun.invariant
      ⟨rfl, tidy_clear ps needSort size, tidy_clear ps needSort sizeSwa⟩ fun s c s' h _ hstep => ?_
    rw [step, Option.map_eq_some_iff] at hstep
    obtain ⟨res, hres, rfl⟩ := hstep
    exact h.call c (toOption_ok hres)
  obtain rfl := h.pageSize
  match c with
  | .alloc n =>
    by_cases hps : s.pageSize = 1
    · exact (allocated_alloc (hps ▸ h) n).keeps_pages rfl id
    · exact keeps_pages_of_refused (if_pos hps) (by simp)
  | .allocExtend batch =>
    by_cases hps : s.pageSize ≤ 1
    · exact keeps_pages_of_refused (if_pos hps) (by simp)
    · exact (allocated_allocExtend h (by omega) batch).keeps_pages rfl id
  | .allocExtendSwaTail r tail =>
    by_cases hps : s.pageSize ≤ 1
    · exact keeps_pages_of_refused (if_pos hps) (by simp)
    by_cases htail : r.extendLen < tail
    · exact keeps_pages_of_refused
        ((if_neg hps).trans (if_pos (.inr htail))) (by simp)
    · exact (allocated_allocExtendSwaTail h (by omega) r (not_lt.1 htail)).keeps_pages
        rfl id
  | .allocDecode batch =>
    by_cases hps : s.pageSize ≤ 1
    · exact keeps_pages_of_refused (if_pos hps) (by simp)
    refine ⟨fun s' hs => unchanged_allocDecode_iff h hs, fun hs => ?_⟩
    cases hring : s.swaReqRing with
    | true => cases (allocDecode_ring h (by omega) hring batch).symm.trans hs
    | false => cases (allocDecode_both h (by omega) hring batch rfl rfl).symm.trans hs

/-- Four full pages and three for the window, of two slots each. -/
def smallSwa : Swa := clear 2 false false false 8 6

lemma zero_le_two : (0 : Nat) ≤ 2 := by decide

/-- Two requests that start, and then decode. -/
def twoStarts : List ExtendReq := [⟨0, 2, none, zero_le_two⟩, ⟨0, 2, none, zero_le_two⟩]

@[inherit_doc twoStarts]
def twoDecodes : List ExtendReq := [⟨2, 3, some 3, by decide⟩, ⟨2, 3, some 5, by decide⟩]

/-- A request for five pages. -/
def longStart : List ExtendReq := [⟨0, 10, none, by decide⟩]

/-- Two full pages are left, and a request for five is refused. -/
theorem failed_extend_keeps_pages :
    ∃ s, Run step (fun _ _ => True) smallSwa s ∧ s.full.allFree = [3, 4] ∧
      ∃ s', s.call (.allocExtend longStart) = .ok (none, s') ∧
        s.Unchanged s' := by
  refine Run.exists_of [.allocExtend twoStarts] (p := fun s => s.full.allFree = [3, 4] ∧
      ∃ res ∈ (s.call (.allocExtend longStart)).toOption, res.1 = none)
    (by decide +kernel) (by decide +kernel) ?_
  rintro s hrun ⟨hfree, ⟨out, s'⟩, hcall, rfl⟩
  exact ⟨hfree, s', toOption_ok hcall, ((failed_alloc_keeps_pages (c := .allocExtend _) hrun
    trivial).1 s' (toOption_ok hcall)).2 id⟩

/-- **A failed decode step can lose pages.**  Two requests hold two of the three pages of the window
and two of the four full ones; the step that gives each its next page returns `None`, and the other
two full pages are free no more. -/
theorem failed_decode_loses_pages :
    ∃ s, Run step (fun _ _ => True) smallSwa s ∧
      s.full.allFree = [3, 4] ∧ ∃ s', s.call (.allocDecode twoDecodes) = .ok (none, s') ∧
        s'.full.allFree = [] := by
  refine Run.exists_of [.allocExtend twoStarts] (p := fun s => s.full.allFree = [3, 4] ∧
      ∃ res ∈ (s.call (.allocDecode twoDecodes)).toOption, res.1 = none ∧ res.2.full.allFree = [])
    (by decide +kernel) (by decide +kernel) ?_
  rintro s - ⟨hfree, ⟨out, s'⟩, hcall, rfl, hs'⟩
  exact ⟨hfree, s', toOption_ok hcall, hs'⟩

end Sglang.Alloc
