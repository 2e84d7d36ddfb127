import Sglang.Experts.Lru
import Sglang.Lib.Runs

/-!
# What the spill LRU keeps

The GPU slots and the host rows are two shelves, and a miss exchanges an item of the one for an item
of the other, in the maps and in every tensor.  `Books` says that the maps are right and `Rows` that
the tensors are; every operation keeps the books.

Before `apply_shrink` a GPU tensor still has a row for every expert, and `_swap_row` also copies the
incoming row to the row with the expert's own number.  If that number is one of the slots, it
overwrites what the slot holds, unless the slot is the one that was just filled (`KeepsRows`).
-/

namespace Sglang.Experts
open Lib List Option Function

variable {J R : Type} {orig : J → ℕ → R} {s s' : Lru J R} {batch : List ℕ}

namespace Lru

/-! ## Victims -/

/-- The loop over the LRU order returns the fallback, or a slot whose expert the batch does not
need. -/
lemma pickLoop_cases (needed : ℕ → Bool) (bound : ℕ) (slots : List ℕ) (idx : ℕ)
    (fallback : Option ℕ) :
    s.pickLoop needed bound idx fallback slots = fallback ∨
      ∃ v ∈ slots, s.pickLoop needed bound idx fallback slots = some v ∧
        needed (s.slotToId v) = false := by
  induction slots generalizing idx fallback with
  | nil => exact .inl rfl
  | cons slot slots ih =>
    rw [pickLoop]
    by_cases hneeded : needed (s.slotToId slot) = true
    · grind
    rw [if_neg hneeded]
    rw [Bool.not_eq_true] at hneeded
    split
    · exact .inr ⟨slot, mem_cons_self, rfl, hneeded⟩
    rcases ih (idx + 1) (fallback.or (some slot)) with h | ⟨v, hv, h⟩
    · rw [h]
      cases fallback with
      | none => exact .inr ⟨slot, mem_cons_self, rfl, hneeded⟩
      | some v => exact .inl rfl
    · exact .inr ⟨v, mem_cons_of_mem slot hv, h⟩

variable {needed : ℕ → Bool}

lemma pickLoop_ne_none {bound : ℕ} {slots : List ℕ} {idx : ℕ} {fallback : Option ℕ}
    (h : fallback ≠ none ∨ ∃ v ∈ slots, needed (s.slotToId v) = false) :
    s.pickLoop needed bound idx fallback slots ≠ none := by
  induction slots generalizing idx fallback with
  | nil =>
    rcases h with h | ⟨v, hv, -⟩
    · exact h
    · exact absurd hv not_mem_nil
  | cons slot slots ih =>
    grind [pickLoop]

variable {v : ℕ}

lemma pickVictim_mem {current : ℕ} (h : s.pickVictim needed current = some v) : v ∈ s.lru := by
  grind [pickVictim, pickLoop_cases]

/-- An occupant that is not needed is chosen if there is one. -/
lemma pickVictim_of_exists (current : ℕ) (hv : v ∈ s.lru) (hnot : needed (s.slotToId v) = false) :
    ∃ u ∈ s.lru, s.pickVictim needed current = some u ∧ needed (s.slotToId u) = false := by
  grind [pickVictim, pickLoop_cases, pickLoop_ne_none]

/-- There is a victim unless the only slot holds the expert itself. -/
lemma pickVictim_ne_none (needed : ℕ → Bool) {current : ℕ} (hv : v ∈ s.lru)
    (hne : s.slotToId v ≠ current) : s.pickVictim needed current ≠ none := by
  grind [pickVictim]

/-- The loop as two searches, from an index on. -/
lemma pickLoop_eq (needed : ℕ → Bool) (bound : ℕ) (slots : List ℕ) (idx : ℕ)
    (fallback : Option ℕ) : s.pickLoop needed bound idx fallback slots =
      ((slots.take (bound - idx)).find? fun v =>
        !needed (s.slotToId v) && s.slotToId v ∈ s.coldIds).or
          (fallback.or (slots.find? fun v => !needed (s.slotToId v))) := by
  induction slots generalizing idx fallback with
  | nil => simp [pickLoop]
  | cons slot slots ih =>
    rw [pickLoop, ih, ih]
    by_cases hidx : idx < bound
    · rw [show bound - idx = bound - (idx + 1) + 1 by omega, take_succ_cons]
      grind
    · rw [Nat.sub_eq_zero_of_le (by omega), Nat.sub_eq_zero_of_le (not_lt.1 hidx)]
      grind

/-- **Whom a miss evicts**: of the slots that the batch leaves free the oldest one with a cold
expert, the most recent slots apart, or else the oldest one; if there is none, the oldest slot of
another expert. -/
theorem victim_oldest_cold_first (s : Lru J R) (needed : ℕ → Bool) (current : ℕ) :
    s.pickVictim needed current =
      (((s.lru.take (s.lru.length - min mruProtect (s.lru.length / 2))).find? fun v =>
        !needed (s.slotToId v) && s.slotToId v ∈ s.coldIds).or
          (s.lru.find? fun v => !needed (s.slotToId v))).or
            (s.lru.find? fun v => s.slotToId v ≠ current) := by
  rw [pickVictim, pickLoop_eq, Nat.sub_zero, none_or]
  cases (Option.or _ _) <;> rfl

/-! ## The invariant -/

/-- The GPU row of a shared expert. -/
def sharedRow (s : Lru J R) (i : ℕ) : ℕ := (if s.applied then s.nKeptRouted else s.nRouted) + i

/-- The slots are rows of the GPU tensors: these have been shrunk, or the tail is spilled. -/
def SlotRows (s : Lru J R) : Prop := s.applied = true ∨ s.keptIds = s.tailKept

instance (s : Lru J R) : Decidable s.SlotRows := inferInstanceAs (Decidable (_ ∨ _))

/-- The books are right: each routed expert has one place, and the tables say which. -/
structure Books (s : Lru J R) : Prop where
  shared_le : s.nShared ≤ s.nExperts
  spilled_le : s.nSpilled ≤ s.nRouted
  slots : Shelf s.nKeptRouted s.idToSlot s.slotToId
  hostSlots : Shelf s.nSpilled s.idToHostSlot s.hostSlotToId
  slot_routed : ∀ {i p}, s.idToSlot i = some p → i < s.nRouted
  host_routed : ∀ {i p}, s.idToHostSlot i = some p → i < s.nRouted
  one_place : ∀ i < s.nRouted, (s.idToSlot i).isSome = true ↔ s.idToHostSlot i = none
  lru_perm : s.lru.Perm (range s.nKeptRouted)
  kept_length : s.keptIds.length = s.nKeptRouted
  table : ∀ t, s.mapTable = some t → ∀ i < s.nExperts, t i = s.cpuMap i
  hostTable : ∀ t, s.hostMapTable = some t → ∀ i < s.nExperts, t i = s.cpuHost i

/-- The rows are right: each tensor has every expert's row at its place. -/
structure Rows (orig : J → ℕ → R) (s : Lru J R) : Prop where
  size : ∀ j, (s.gpus j).size = if s.applied then s.nKeptRouted + s.nShared else s.nExperts
  held : s.SlotRows → ∀ j, Stores s.idToSlot (s.gpus j).row (orig j)
  unmoved : ¬ s.SlotRows → (∀ i p, s.idToSlot i = some p → s.keptIds.getD p 0 = i) ∧
    ∀ j, ∀ i < s.nExperts, (s.gpus j).row i = orig j i
  hostHeld : ∀ j, Stores s.idToHostSlot (s.hosts j).row (orig j)
  shared : ∀ j, ∀ i < s.nShared, (s.gpus j).row (s.sharedRow i) = orig j (s.nRouted + i)

/-- The LRU order lists exactly the slots. -/
lemma Books.mem_lru (h : s.Books) : v ∈ s.lru ↔ v < s.nKeptRouted := by
  rw [h.lru_perm.mem_iff, mem_range]

/-- The copy to the row with the expert's own number does no harm. -/
def KeepsRows (s : Lru J R) (batch : List ℕ) (logical : ℕ) : Prop :=
  s.applied = true ∨ s.nKeptRouted ≤ logical ∨ (s.idToSlot logical).isSome = true ∨
    s.pickVictim (s.needed batch) logical = some logical

instance (s : Lru J R) (batch : List ℕ) (logical : ℕ) : Decidable (s.KeepsRows batch logical) :=
  inferInstanceAs (Decidable (_ ∨ _))

/-! ### A swap -/

section
variable {needed : ℕ → Bool} {logical hs victim : ℕ} {j : J}

/-- The host row takes what was in the slot. -/
lemma swapRow_host (gpu host : Tensor R) :
    (s.swapRow gpu host victim hs logical).2.row = update host.row hs (gpu.row victim) := by
  rw [swapRow]
  split <;> rfl

lemma swapRow_size (gpu host : Tensor R) :
    (s.swapRow gpu host victim hs logical).1.size = gpu.size := by
  rw [swapRow]
  split <;> rfl

/-- A row other than that of the expert's own number. -/
lemma swapRow_gpu (gpu host : Tensor R) {r : ℕ}
    (h : s.applied = true ∨ r ≠ logical ∨ victim = logical) :
    (s.swapRow gpu host victim hs logical).1.row r = update gpu.row victim (host.row hs) r := by
  rw [swapRow]
  split
  next hcopy =>
    rcases h with h | h | rfl
    · exact absurd h hcopy.1
    · exact update_of_ne h _ _
    · exact congrFun (update_eq_self _ _) r
  next => rfl

lemma cpuHost_swapIn (hne : s.slotToId victim ≠ logical) :
    (s.swapIn needed logical hs victim).cpuHost =
      update (update s.cpuHost logical (-1)) (s.slotToId victim) hs := by
  have hplace : (s.swapIn needed logical hs victim).idToHostSlot =
      exchanged s.idToHostSlot logical (s.slotToId victim) hs := rfl
  funext i
  rw [cpuHost, hplace]
  by_cases hv : i = s.slotToId victim
  · rw [hv, exchanged_in, update_self]
  by_cases hl : i = logical
  · rw [hl, exchanged_out hne.symm, update_of_ne hne.symm, update_self]
  · rw [exchanged_other hl hv, update_of_ne hv, update_of_ne hl]
    rfl

/-- A swap changes the device table at the two experts that change places. -/
lemma cpuMap_swapIn (hne : s.slotToId victim ≠ logical) (hlt : logical < s.nRouted)
    (hvlt : s.slotToId victim < s.nRouted) :
    (s.swapIn needed logical hs victim).cpuMap =
      update (update s.cpuMap (s.slotToId victim) (-1)) logical victim := by
  have hplace : (s.swapIn needed logical hs victim).idToSlot =
      exchanged s.idToSlot (s.slotToId victim) logical victim := rfl
  have hconfig : (s.swapIn needed logical hs victim).toConfig = s.toConfig := rfl
  funext i
  rw [cpuMap, hplace, hconfig]
  by_cases hl : i = logical
  · rw [hl, exchanged_in, update_self, if_neg (by omega)]
  by_cases hv : i = s.slotToId victim
  · rw [hv, exchanged_out hne, update_of_ne hne, update_self, if_neg (by omega)]
  · rw [exchanged_other hv hl, update_of_ne hl, update_of_ne hv]
    rfl

/-- Two updates of a table that is right. -/
lemma update_table {t u : ℕ → ℤ} {n a b : ℕ} {x y : ℤ} (h : ∀ i < n, t i = u i) :
    ∀ i < n, update (update t a x) b y i = update (update u a x) b y i := by
  grind

/-- The occupant of a slot is not the expert that is missing. -/
lemma Books.occupant_ne (h : s.Books) (hv : victim < s.nKeptRouted)
    (hmiss : s.idToSlot logical = none) : s.slotToId victim ≠ logical := by
  grind [h.slots.place_item]

lemma Books.occupant_lt (h : s.Books) (hv : victim < s.nKeptRouted) :
    s.slotToId victim < s.nRouted := h.slot_routed (h.slots.place_item hv)

/-- **A miss** keeps the books right. -/
theorem Books.swapIn (h : s.Books) (hv : victim < s.nKeptRouted) (hlt : logical < s.nRouted)
    (hmiss : s.idToSlot logical = none) (hhost : s.idToHostSlot logical = some hs) :
    (s.swapIn needed logical hs victim).Books := by
  have hplace := h.slots.place_item hv
  have hvictim : s.idToHostSlot (s.slotToId victim) = none :=
    (h.one_place _ (h.slot_routed hplace)).1 (by rw [hplace]; rfl)
  have hne := h.occupant_ne hv hmiss
  have hitem : s.hostSlotToId hs = logical := h.hostSlots.item_of_place hhost
  have hhs : hs < s.nSpilled := h.hostSlots.lt_of_place hhost
  exact
    { shared_le := h.shared_le
      spilled_le := h.spilled_le
      slots := h.slots.exchange hv hmiss
      hostSlots := by
        have hex := h.hostSlots.exchange hhs hvictim
        rw [hitem] at hex
        exact hex
      slot_routed := by
        intro i p hi
        rcases exchanged_eq_some hi with ⟨rfl, -⟩ | ⟨-, -, hi⟩
        · exact hlt
        · exact h.slot_routed hi
      host_routed := by
        intro i p hi
        rcases exchanged_eq_some hi with ⟨rfl, -⟩ | ⟨-, -, hi⟩
        · exact h.slot_routed hplace
        · exact h.host_routed hi
      one_place := by
        intro i hi
        have hold := h.one_place i hi
        refine isSome_exchanged.trans ?_
        rw [← not_isSome_iff_eq_none]
        refine Iff.trans ?_ (not_congr isSome_exchanged).symm
        rw [← not_isSome_iff_eq_none] at hold
        by_cases hl : i = logical
        · omega
        by_cases hvi : i = s.slotToId victim
        · omega
        · grind
      lru_perm := by
        refine perm_append_comm.trans ?_
        exact (perm_cons_erase (h.mem_lru.2 hv)).symm.trans h.lru_perm
      kept_length := h.kept_length
      table := by
        intro t ht
        obtain ⟨t0, ht0, rfl⟩ := map_eq_some_iff.1 ht
        rw [cpuMap_swapIn hne hlt (h.occupant_lt hv)]
        exact update_table (h.table t0 ht0)
      hostTable := by
        intro t ht
        obtain ⟨t0, ht0, rfl⟩ := map_eq_some_iff.1 ht
        rw [cpuHost_swapIn hne]
        exact update_table (h.hostTable t0 ht0) }

/-- **A miss** keeps the rows right if the copy does no harm. -/
theorem Rows.swapIn (h : s.Rows orig) (hbooks : s.Books) (hslots : s.SlotRows)
    (hv : victim < s.nKeptRouted) (hlt : logical < s.nRouted) (hmiss : s.idToSlot logical = none)
    (hhost : s.idToHostSlot logical = some hs)
    (hkeep : s.applied = true ∨ s.nKeptRouted ≤ logical ∨ victim = logical) :
    (s.swapIn needed logical hs victim).Rows orig := by
  have hplace := hbooks.slots.place_item hv
  have hitem : s.hostSlotToId hs = logical := hbooks.hostSlots.item_of_place hhost
  have hhs : hs < s.nSpilled := hbooks.hostSlots.lt_of_place hhost
  -- the rows of the slots and of the shared experts
  have hrow : ∀ j r, (s.applied = true ∨ r < s.nKeptRouted ∨ s.nRouted ≤ r) →
      ((s.swapIn needed logical hs victim).gpus j).row r =
        update (s.gpus j).row victim (orig j logical) r := by
    intro j r hr
    refine (swapRow_gpu _ _ ?_).trans ?_
    · grind
    · rw [h.hostHeld j logical hs hhost]
  exact
    { size := fun j => (swapRow_size _ _).trans (h.size j)
      held := by
        intro _ j i p hi
        have hp : p < s.nKeptRouted := (hbooks.slots.exchange hv hmiss).lt_of_place hi
        rw [hrow j p (.inr (.inl hp))]
        exact hbooks.slots.stores_exchange hv (h.held hslots j) i p hi
      unmoved := fun hnot => absurd hslots hnot
      hostHeld := by
        intro j
        have hhostRow : ((s.swapIn needed logical hs victim).hosts j).row =
            update (s.hosts j).row hs (orig j (s.slotToId victim)) := by
          refine (swapRow_host _ _).trans ?_
          rw [h.held hslots j _ victim hplace]
        have hst := hbooks.hostSlots.stores_exchange (b := s.slotToId victim) hhs (h.hostHeld j)
        rw [hitem] at hst
        rw [hhostRow]
        exact hst
      shared := by
        intro j i hi
        have hold := h.shared j i hi
        have hsame : (s.swapIn needed logical hs victim).sharedRow i = s.sharedRow i := rfl
        rw [hsame, hrow j]
        · rw [update_of_ne, hold]
          · rfl
          · grind [sharedRow]
        · rw [sharedRow]
          cases ha : s.applied with
          | true => exact .inl rfl
          | false => exact .inr (.inr (Nat.le_add_right _ _)) }

end

/-! ### The operations -/

/-- A hit only changes the order of the slots. -/
lemma Books.touch (h : s.Books) {slot : ℕ} (hslot : slot < s.nKeptRouted) :
    Books { s with lru := s.lru.erase slot ++ [slot] } :=
  { h with
    lru_perm := perm_append_comm.trans
      ((perm_cons_erase (h.mem_lru.2 hslot)).symm.trans h.lru_perm) }

/-- What the body of the loop does. -/
inductive EnsureOne (s : Lru J R) (batch : List ℕ) (logical : ℤ) : Lru J R → Prop
  | skip (h : logical < 0 ∨ s.nRouted ≤ logical.toNat) : EnsureOne s batch logical s
  | hit {slot : ℕ} (h : s.idToSlot logical.toNat = some slot) :
    EnsureOne s batch logical { s with lru := s.lru.erase slot ++ [slot] }
  | miss {victim hs : ℕ} (hnonneg : 0 ≤ logical) (hlt : logical.toNat < s.nRouted)
    (hmiss : s.idToSlot logical.toNat = none)
    (hvictim : s.pickVictim (s.needed batch) logical.toNat = some victim)
    (hhost : s.idToHostSlot logical.toNat = some hs) :
    EnsureOne s batch logical (s.swapIn (s.needed batch) logical.toNat hs victim)

variable {logical : ℤ}

/-- What one iteration of `ensure` can do: nothing, a touch of a resident expert, or a swap. -/
lemma ensureOne_cases (h : s.ensureOne batch logical = .ok s') :
    EnsureOne s batch logical s' := by
  rw [ensureOne] at h
  split at h
  next hneg =>
    cases h
    exact .skip (.inl hneg)
  next hneg =>
  split at h
  · cases h
  split at h
  next hshared =>
    cases h
    exact .skip (.inr hshared)
  next hlt =>
  split at h
  next slot hslot =>
    cases h
    exact .hit hslot
  next hmiss =>
  split at h
  · cases h
  split at h
  · cases h
  next victim hvictim =>
  split at h
  · cases h
  next hs hhost =>
    cases h
    exact .miss (by omega) (by omega) hmiss hvictim hhost

lemma Books.ensureOne (h : s.Books) (hs : s.ensureOne batch logical = .ok s') : s'.Books := by
  cases ensureOne_cases hs with
  | skip => exact h
  | hit hslot => exact h.touch (h.slots.lt_of_place hslot)
  | miss hnonneg hlt hmiss hvictim hhost =>
    exact h.swapIn (h.mem_lru.1 (pickVictim_mem hvictim)) hlt hmiss hhost

/-- An iteration keeps the rows right if the copy to the row of the same number does no harm. -/
lemma Rows.ensureOne (h : s.Rows orig) (hbooks : s.Books) (hslots : s.SlotRows)
    (hkeep : 0 ≤ logical → s.KeepsRows batch logical.toNat)
    (hs : s.ensureOne batch logical = .ok s') : s'.Rows orig ∧ s'.SlotRows := by
  cases ensureOne_cases hs with
  | skip => exact ⟨h, hslots⟩
  | hit hslot => exact ⟨{ h with }, hslots⟩
  | miss hnonneg hlt hmiss hvictim hhost =>
    have hv := hbooks.mem_lru.1 (pickVictim_mem hvictim)
    refine ⟨h.swapIn hbooks hslots hv hlt hmiss hhost ?_, hslots⟩
    rcases hkeep hnonneg with ha | hle | hres | heq
    · exact .inl ha
    · exact .inr (.inl hle)
    · rw [hmiss] at hres
      cases hres
    · grind

/-- In every iteration of the loop the copy does no harm. -/
def SafeLoop (batch : List ℕ) : Lru J R → List ℤ → Prop
  | _, [] => True
  | s, logical :: ids =>
    (0 ≤ logical → s.KeepsRows batch logical.toNat) ∧ match s.ensureOne batch logical with
      | .error _ => True
      | .ok s' => SafeLoop batch s' ids

instance SafeLoop.decidable (batch : List ℕ) :
    ∀ (s : Lru J R) (ids : List ℤ), Decidable (SafeLoop batch s ids)
  | _, [] => isTrue trivial
  | s, logical :: ids =>
    have : Decidable (match s.ensureOne batch logical with
        | .error _ => True
        | .ok s' => SafeLoop batch s' ids) :=
      match s.ensureOne batch logical with
      | .error _ => isTrue trivial
      | .ok s' => SafeLoop.decidable batch s' ids
    inferInstanceAs (Decidable ((0 ≤ logical → s.KeepsRows batch logical.toNat) ∧ _))

variable {ids : List ℤ}

lemma Books.ensureLoop (h : s.Books) : (ensureLoop batch s ids).1.Books := by
  induction ids generalizing s with
  | nil => exact h
  | cons logical ids ih =>
    grind [Lru.ensureLoop, h.ensureOne]

/-- So does the whole loop, if each of its iterations does. -/
lemma Rows.ensureLoop (h : s.Rows orig) (hbooks : s.Books) (hslots : s.SlotRows)
    (hsafe : SafeLoop batch s ids) : (ensureLoop batch s ids).1.Rows orig := by
  induction ids generalizing s with
  | nil => exact h
  | cons logical ids ih =>
    obtain ⟨hkeep, hrest⟩ := hsafe
    rw [Lru.ensureLoop]
    cases hone : s.ensureOne batch logical with
    | error e => exact h
    | ok s' =>
      grind [h.ensureOne, hbooks.ensureOne]

lemma Books.ensure (h : s.Books) (ids : List ℤ) : (s.ensure ids).1.Books := by
  grind [Lru.ensure, h.ensureLoop]

lemma Rows.ensure (h : s.Rows orig) (hbooks : s.Books)
    (hsafe : s.SlotRows → SafeLoop (s.batchOf ids) s ids) : (s.ensure ids).1.Rows orig := by
  rw [Lru.ensure]
  split
  · exact h
  next hplacement =>
    have hslots : s.SlotRows := by
      by_contra hnot
      exact hplacement ⟨fun ha => hnot (.inl ha), fun hk => hnot (.inr hk)⟩
    exact h.ensureLoop hbooks hslots (hsafe hslots)

lemma Books.ensureDeviceTables (h : s.Books) : s.ensureDeviceTables.Books := by
  rw [Lru.ensureDeviceTables]
  split
  · refine { h with table := ?_, hostTable := ?_ }
    · rintro t ⟨⟩ i -
      rfl
    · rintro t ⟨⟩ i -
      rfl
  · exact h

lemma Rows.ensureDeviceTables (h : s.Rows orig) : s.ensureDeviceTables.Rows orig := by
  rw [Lru.ensureDeviceTables]
  split
  · exact { h with }
  · exact h

lemma Books.applyShrink (h : s.Books) : s.applyShrink.Books := by
  rw [Lru.applyShrink]
  split
  · exact h
  · exact { h with }

/-- Cutting the tensors to their slots loses no row that the books name. -/
lemma Rows.applyShrink (h : s.Rows orig) (hbooks : s.Books) : s.applyShrink.Rows orig := by
  rw [Lru.applyShrink]
  split
  · exact h
  next ha =>
    have hslot : ∀ j i p, s.idToSlot i = some p →
        (s.gpus j).row (s.keptIds.getD p 0) = orig j i := by
      intro j i p hi
      by_cases hrows : s.SlotRows
      · have hp := hbooks.slots.lt_of_place hi
        rw [hrows.resolve_left ha, Config.tailKept, getD_eq_getElem?_getD, getElem?_range hp]
        exact h.held hrows j i p hi
      · obtain ⟨hkept, hrow⟩ := h.unmoved hrows
        rw [hkept i p hi]
        exact hrow j i ((hbooks.slot_routed hi).trans_le (Nat.sub_le _ _))
    refine { h with size := ?_, held := ?_, unmoved := ?_, shared := ?_ }
    · intro j
      exact congrArg (· + s.nShared) hbooks.kept_length
    · intro _ j i p hi
      have hp : p < s.keptIds.length := hbooks.kept_length ▸ hbooks.slots.lt_of_place hi
      exact (if_pos hp).trans (hslot j i p hi)
    · exact fun hnot => absurd (.inl rfl) hnot
    · intro j i hi
      have hold := h.shared j i hi
      rw [sharedRow, if_neg ha] at hold
      have hle : s.keptIds.length ≤ s.nKeptRouted + i := hbooks.kept_length ▸ Nat.le_add_right _ _
      have hrow : s.nKeptRouted + i - s.keptIds.length = i := by
        simp [hbooks.kept_length]
      have hshrunk : (s.shrinkOne (s.gpus j)).row (s.nKeptRouted + i) =
          (s.gpus j).row (s.nRouted + i) := by
        refine (if_neg (not_lt.2 hle)).trans ?_
        rw [hrow]
      exact hshrunk.trans hold

/-! ## Residency -/

/-- An id that is resident. -/
def Resident (s : Lru J R) (i : ℕ) : Prop := (s.idToSlot i).isSome = true

instance (s : Lru J R) (i : ℕ) : Decidable (s.Resident i) := inferInstanceAs (Decidable (_ = true))

/-- With no more routed ids than slots no resident of the batch is evicted. -/
lemma ensureOne_keeps (h : s.Books) (hcard : batch.toFinset.card ≤ s.nKeptRouted)
    (hmem : 0 ≤ logical → logical.toNat < s.nRouted → logical.toNat ∈ batch)
    (hs : s.ensureOne batch logical = .ok s') :
    s'.nThrash = s.nThrash ∧ (∀ i ∈ batch, s.Resident i → s'.idToSlot i = s.idToSlot i) ∧
      (0 ≤ logical → logical.toNat < s.nRouted → s'.Resident logical.toNat) := by
  cases ensureOne_cases hs with
  | skip hskip => exact ⟨rfl, fun _ _ _ => rfl, fun h0 hlt => by omega⟩
  | hit hslot => exact ⟨rfl, fun _ _ _ => rfl, fun _ _ => by rw [Resident, hslot]; rfl⟩
  | @miss victim hs hnonneg hlt hmiss hvictim hhost =>
    obtain ⟨p, hp, hnot⟩ :=
      h.slots.exists_item_notMem hcard (List.mem_toFinset.2 (hmem hnonneg hlt)) hmiss
    have hfree : s.needed batch (s.slotToId p) = false := by
      simp_all [needed]
    obtain ⟨u, -, hu, hunneeded⟩ := pickVictim_of_exists logical.toNat (h.mem_lru.2 hp) hfree
    rw [hvictim] at hu
    cases hu
    refine ⟨?_, fun i hi hres => ?_, fun _ _ => ?_⟩
    · grind [swapIn]
    · have hne : i ≠ s.slotToId victim := by
        rintro rfl
        rw [needed, decide_eq_false_iff_not] at hunneeded
        exact hunneeded ⟨hres, hi⟩
      refine exchanged_other hne ?_
      rintro rfl
      rw [Resident, hmiss] at hres
      cases hres
    · exact congrArg isSome exchanged_in

/-- With no more experts in the batch than slots there is a victim that the batch does not need. -/
lemma ensureOne_ok (h : s.Books) (hcard : batch.toFinset.card ≤ s.nKeptRouted)
    (hmem : 0 ≤ logical → logical.toNat < s.nRouted → logical.toNat ∈ batch)
    (hlt : 0 ≤ logical → logical.toNat < s.nExperts) :
    ∃ s', s.ensureOne batch logical = .ok s' := by
  rw [Lru.ensureOne]
  by_cases hneg : logical < 0
  · exact ⟨s, if_pos hneg⟩
  have hnonneg : 0 ≤ logical := by omega
  rw [if_neg hneg, if_neg (not_le.2 (hlt hnonneg))]
  by_cases hshared : s.nRouted ≤ logical.toNat
  · exact ⟨s, if_pos hshared⟩
  rw [if_neg hshared]
  have hrouted : logical.toNat < s.nRouted := by omega
  have hb := List.mem_toFinset.2 (hmem hnonneg hrouted)
  cases hslot : s.idToSlot logical.toNat with
  | some slot => exact ⟨_, rfl⟩
  | none =>
    obtain ⟨p, hp, hnot⟩ := h.slots.exists_item_notMem hcard hb hslot
    have hne : s.slotToId p ≠ logical.toNat := by
      grind
    obtain ⟨victim, hvictim⟩ := ne_none_iff_exists'.1
      (pickVictim_ne_none (s.needed batch) (h.mem_lru.2 hp) hne)
    have hhost : s.idToHostSlot logical.toNat ≠ none := by
      intro hnone
      have hsome := (h.one_place _ hrouted).2 hnone
      rw [hslot] at hsome
      cases hsome
    obtain ⟨hs, hhs⟩ := ne_none_iff_exists'.1 hhost
    rw [if_neg (by omega), hvictim]
    rw [hhs]
    exact ⟨_, rfl⟩

/-- The configuration and the placement do not change. -/
lemma ensureOne_config (hs : s.ensureOne batch logical = .ok s') :
    s'.toConfig = s.toConfig ∧ s'.applied = s.applied := by
  cases ensureOne_cases hs <;> exact ⟨rfl, rfl⟩

lemma ensureLoop_config (batch : List ℕ) (s : Lru J R) (ids : List ℤ) :
    (ensureLoop batch s ids).1.toConfig = s.toConfig ∧
      (ensureLoop batch s ids).1.applied = s.applied := by
  induction ids generalizing s with
  | nil => exact ⟨rfl, rfl⟩
  | cons logical ids ih =>
    rw [ensureLoop]
    cases hone : s.ensureOne batch logical with
    | error e => exact ⟨rfl, rfl⟩
    | ok s' =>
      grind [ensureOne_config]

/-- **With no more routed ids than slots** a loop that ends has every id of the batch resident, and
none of them was evicted. -/
theorem ensureLoop_resident (ids : List ℤ) (h : s.Books)
    (hcard : batch.toFinset.card ≤ s.nKeptRouted)
    (hmem : ∀ i ∈ ids, 0 ≤ i → i.toNat < s.nRouted → i.toNat ∈ batch)
    (hok : (ensureLoop batch s ids).2 = none) :
    (ensureLoop batch s ids).1.nThrash = s.nThrash ∧
      (∀ i ∈ batch, s.Resident i → (ensureLoop batch s ids).1.idToSlot i = s.idToSlot i) ∧
      ∀ i ∈ ids, 0 ≤ i → i.toNat < s.nRouted → (ensureLoop batch s ids).1.Resident i.toNat := by
  induction ids generalizing s with
  | nil => exact ⟨rfl, fun _ _ _ => rfl, fun i hi => absurd hi not_mem_nil⟩
  | cons logical ids ih =>
    rw [ensureLoop] at hok ⊢
    cases hone : s.ensureOne batch logical with
    | error e =>
      rw [hone] at hok
      cases hok
    | ok s' =>
      rw [hone] at hok
      have hconfig := (ensureOne_config hone).1
      have hin := hmem logical mem_cons_self
      obtain ⟨hthrash, hkeeps, hres⟩ := ensureOne_keeps h hcard hin hone
      have hcard' : batch.toFinset.card ≤ s'.nKeptRouted := by rwa [hconfig]
      have hmem' : ∀ i ∈ ids, 0 ≤ i → i.toNat < s'.nRouted → i.toNat ∈ batch := by
        grind
      obtain ⟨hthrash', hkeeps', hres'⟩ := ih (h.ensureOne hone) hcard' hmem' hok
      refine ⟨hthrash'.trans hthrash, fun i hi hr => ?_, fun i hi h0 hlt => ?_⟩
      · grind [Resident]
      rcases mem_cons.1 hi with rfl | hi
      · grind [Resident]
      · exact hres' i hi h0 (by rwa [hconfig])

/-- It does end if the ids are ids of experts. -/
lemma ensureLoop_ok (ids : List ℤ) (h : s.Books) (hcard : batch.toFinset.card ≤ s.nKeptRouted)
    (hmem : ∀ i ∈ ids, 0 ≤ i → i.toNat < s.nRouted → i.toNat ∈ batch)
    (hlt : ∀ i ∈ ids, 0 ≤ i → i.toNat < s.nExperts) : (ensureLoop batch s ids).2 = none := by
  induction ids generalizing s with
  | nil => rfl
  | cons logical ids ih =>
    obtain ⟨s', hone⟩ := ensureOne_ok h hcard (hmem logical mem_cons_self)
      (hlt logical mem_cons_self)
    have hconfig := (ensureOne_config hone).1
    rw [ensureLoop, hone]
    refine ih (h.ensureOne hone) (by rwa [hconfig]) ?_ ?_
    · grind
    · grind

/-- The batch are the routed ids that the call names. -/
lemma mem_batchOf {i : ℤ} (hi : i ∈ ids) (h0 : 0 ≤ i) (hlt : i.toNat < s.nRouted) :
    i.toNat ∈ s.batchOf ids :=
  List.mem_map_of_mem (mem_filter.2 ⟨hi, decide_eq_true ⟨h0, hlt⟩⟩)

lemma exists_of_mem_batchOf {i : ℕ} (hi : i ∈ s.batchOf ids) : i < s.nRouted ∧ (i : ℤ) ∈ ids := by
  obtain ⟨a, ha, rfl⟩ := List.mem_map.1 hi
  obtain ⟨hmem, hand⟩ := mem_filter.1 ha
  obtain ⟨h0, hlt⟩ := of_decide_eq_true hand
  exact ⟨hlt, by rwa [Int.toNat_of_nonneg h0]⟩

lemma ensure_config (ids : List ℤ) :
    (s.ensure ids).1.toConfig = s.toConfig ∧ (s.ensure ids).1.applied = s.applied := by
  grind [ensure, ensureLoop_config]

/-- Unless the placement is refused, `ensure` is its loop. -/
lemma ensure_eq_loop (ids : List ℤ) (hslots : s.SlotRows) :
    s.ensure ids = ensureLoop (s.batchOf ids) s ids := by
  rw [ensure, if_neg]
  rintro ⟨ha, hk⟩
  exact hslots.elim ha hk

/-- A batch of no more routed ids than slots that `ensure` took. -/
lemma ensure_resident (h : s.Books) (hcard : (s.batchOf ids).toFinset.card ≤ s.nKeptRouted)
    (hok : (s.ensure ids).2 = none) :
    (s.ensure ids).1.nThrash = s.nThrash ∧ ∀ i ∈ s.batchOf ids, (s.ensure ids).1.Resident i ∧
      (s.Resident i → (s.ensure ids).1.idToSlot i = s.idToSlot i) := by
  rw [ensure] at hok ⊢
  split at hok
  · cases hok
  next hplacement =>
    rw [if_neg hplacement]
    obtain ⟨hthrash, hkeeps, hres⟩ :=
      ensureLoop_resident ids h hcard (fun i hi h0 hlt => mem_batchOf hi h0 hlt) hok
    refine ⟨hthrash, fun i hi => ⟨?_, hkeeps i hi⟩⟩
    obtain ⟨hlt, hmem⟩ := exists_of_mem_batchOf hi
    exact hres i hmem (Int.natCast_nonneg i) (by rwa [Int.toNat_natCast])

/-- A batch that fits does not fail. -/
lemma ensure_ok (h : s.Books) (hslots : s.SlotRows)
    (hcard : (s.batchOf ids).toFinset.card ≤ s.nKeptRouted)
    (hlt : ∀ i ∈ ids, 0 ≤ i → i.toNat < s.nExperts) : (s.ensure ids).2 = none := by
  grind [ensure_eq_loop, ensureLoop_ok, mem_batchOf]

end Lru
end Sglang.Experts
